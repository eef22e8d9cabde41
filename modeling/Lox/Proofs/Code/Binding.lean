import Lox.Proofs.Code.Reading
import Lox.Proofs.Compile.Independence
import Lox.Proofs.Compile.Programs
import Lox.Proofs.Syntax.Binding

/-!
# Names in the code of a tree

The instructions of a function do with variables what its tree says, in the same order. A local
of the function is its slot, a global is its name, and a local of a function around is an index
among the captured variables. From there the captures lead outward, one function at a time, to the
slot of the local. A local that functions inside mention is closed when its scope ends.

## Main definitions

* `Capture.source?` — the local that a captured variable is.
* `Means` — the variable that an operand stands for.
* `Performs` — the code of a function has given effects.

## Main results

* `Capture.source?_inj` — a local has only one index.
* `Encoding.Script.performs` — the code of a script has the effects of its tree.
* `compile_binds` — names resolve lexically in every accepted program.
-/

namespace Lox

/-! ### Following captures -/

namespace Capture

/-- The local that a captured variable is: how many functions out, and its slot there. The lists
are those of the captured variables of the functions, innermost first. -/
def source? : List (List Capture) → Nat → Option (Nat × Nat)
  | [], _ => none
  | captures :: around, i =>
    match captures[i]? with
    | none => none
    | some c =>
      if c.isLocal then some (1, c.index.toNat)
      else (source? around c.index.toNat).map fun found => (found.1 + 1, found.2)

variable {captures : List Capture} {around lists : List (List Capture)} {i j level slot : Nat}
  {c : Capture}

/-- A capture of a slot leads to the function around. -/
theorem source?_of_isLocal (found : captures[i]? = some c) (isLocal : c.isLocal = true) :
    source? (captures :: around) i = some (1, c.index.toNat) := by
  simp [source?, found, isLocal]

/-- Any other capture leads to what the function around has captured. -/
theorem source?_of_passed (found : captures[i]? = some c) (passed : c.isLocal = false)
    (source : source? around c.index.toNat = some (level, slot)) :
    source? (captures :: around) i = some (level + 1, slot) := by
  simp [source?, found, passed, source]

/-- The two ways to a local. -/
theorem of_source? (source : source? (captures :: around) i = some (level, slot)) :
    ∃ c, captures[i]? = some c ∧ ((c.isLocal = true ∧ level = 1 ∧ slot = c.index.toNat) ∨
      (c.isLocal = false ∧ ∃ further, source? around c.index.toNat = some (further, slot) ∧
        level = further + 1)) := by
  rw [source?] at source
  split at source
  · cases source
  · rename_i c found
    refine ⟨c, found, ?_⟩
    split at source
    · rename_i hlocal
      cases source
      exact .inl ⟨hlocal, rfl, rfl⟩
    · rename_i hpassed
      obtain ⟨⟨further, slot'⟩, hfurther, heq⟩ := Option.map_eq_some_iff.mp source
      cases heq
      exact .inr ⟨Bool.eq_false_iff.mpr hpassed, further, hfurther, rfl⟩

/-- Captured variables are locals of functions around. -/
theorem source?_pos (source : source? lists i = some (level, slot)) : 0 < level := by
  cases lists with
  | nil => cases source
  | cons captures around =>
      obtain ⟨c, -, ⟨-, hlevel, -⟩ | ⟨-, further, -, hlevel⟩⟩ := of_source? source
      · exact hlevel ▸ Nat.one_pos
      · exact hlevel ▸ Nat.succ_pos _

/-- If no function captures a variable twice, then no local has two indices in a function. -/
theorem source?_inj (distinct : ∀ captures ∈ lists, captures.Nodup)
    (first : source? lists i = some (level, slot)) (second : source? lists j = some (level, slot)) :
    i = j := by
  induction lists generalizing i j level with
  | nil => cases first
  | cons captures around ih =>
      obtain ⟨c, hc, hfirst⟩ := of_source? first
      obtain ⟨d, hd, hsecond⟩ := of_source? second
      have hsame : c.index = d.index ∧ c.isLocal = d.isLocal := by
        obtain ⟨hlocal, hlevel, hslot⟩ | ⟨hpassed, further, hfurther, hlevel⟩ := hfirst
        · obtain ⟨hlocal', -, hslot'⟩ | ⟨-, further', hfurther', hlevel'⟩ := hsecond
          · exact ⟨UInt8.toNat_inj.mp (hslot.symm.trans hslot'), hlocal.trans hlocal'.symm⟩
          · have := source?_pos hfurther'
            omega
        · obtain ⟨-, hlevel', -⟩ | ⟨hpassed', further', hfurther', hlevel'⟩ := hsecond
          · have := source?_pos hfurther
            omega
          · obtain rfl : further = further' := by omega
            have hindex := ih (fun captures h => distinct captures (.tail _ h)) hfurther hfurther'
            exact ⟨UInt8.toNat_inj.mp hindex, hpassed.trans hpassed'.symm⟩
      obtain rfl : c = d := by
        cases c
        cases d
        exact congrArg₂ Capture.mk hsame.1 hsame.2
      have hbound := (List.getElem?_eq_some_iff.mp hc).1
      exact (List.getElem?_inj hbound (distinct captures (.head _))).mp (hc.trans hd.symm)

end Capture

/-! ### Effects of code -/

/-- Operations that do nothing with variables, and that drop no value without using it. -/
def OpCode.isSilent : OpCode → Bool
  | .getLocal | .setLocal | .getGlobal | .defineGlobal | .setGlobal | .getUpvalue | .setUpvalue
  | .pop | .closeUpvalue | .closure => false
  | _ => true

/-- The code of a function has given effects, where the function has given constants and where it
and the functions around it capture given variables. -/
inductive Performs : List Constant → List (List Capture) → List Effect → List UInt8 → Prop
  | nil {constants : List Constant} {captures : List (List Capture)} :
      Performs constants captures [] []
  | append {constants : List Constant} {captures : List (List Capture)}
      {effects more : List Effect} {bs ds : List UInt8} : Performs constants captures effects bs →
      Performs constants captures more ds →
        Performs constants captures (effects ++ more) (bs ++ ds)
  | silent {constants : List Constant} {captures : List (List Capture)} {op : OpCode}
      {operand : Nat} {bs : List UInt8} : OpCode.Form op operand bs → op.isSilent = true →
        Performs constants captures [] bs
  | getLocal {constants : List Constant} {captures : List (List Capture)} {i : UInt8} :
      Performs constants captures [.read (.local 0 i.toNat)] (OpCode.getLocal.short i)
  | setLocal {constants : List Constant} {captures : List (List Capture)} {i : UInt8} :
      Performs constants captures [.write (.local 0 i.toNat)] (OpCode.setLocal.short i)
  | getUpvalue {constants : List Constant} {captures : List (List Capture)} {i : UInt8}
      {level slot : Nat} : Capture.source? captures i.toNat = some (level, slot) →
        Performs constants captures [.read (.local level slot)] (OpCode.getUpvalue.short i)
  | setUpvalue {constants : List Constant} {captures : List (List Capture)} {i : UInt8}
      {level slot : Nat} : Capture.source? captures i.toNat = some (level, slot) →
        Performs constants captures [.write (.local level slot)] (OpCode.setUpvalue.short i)
  | getGlobal {constants : List Constant} {captures : List (List Capture)} {i : UInt8}
      {name : String} : constants[i.toNat]? = some (.text name) →
        Performs constants captures [.read (.global name)] (OpCode.getGlobal.short i)
  | setGlobal {constants : List Constant} {captures : List (List Capture)} {i : UInt8}
      {name : String} : constants[i.toNat]? = some (.text name) →
        Performs constants captures [.write (.global name)] (OpCode.setGlobal.short i)
  | define {constants : List Constant} {captures : List (List Capture)} {i : UInt8}
      {name : String} : constants[i.toNat]? = some (.text name) →
        Performs constants captures [.define name] (OpCode.defineGlobal.short i)
  | discard {constants : List Constant} {captures : List (List Capture)} :
      Performs constants captures [.discard] OpCode.pop.plain
  /-- A local that no function inside mentions may be dropped. -/
  | leave {constants : List Constant} {captures : List (List Capture)} :
      Performs constants captures [.leave false] OpCode.pop.plain
  | leaveClosed {constants : List Constant} {captures : List (List Capture)} {captured : Bool} :
      Performs constants captures [.leave captured] OpCode.closeUpvalue.plain
  /-- No variable is captured twice, and captured variables with two indices are two locals. -/
  | close {constants inner : List Constant} {captures : List (List Capture)} {i : UInt8}
      {t : Template} {own : List Capture} {body : List Effect} :
      constants[i.toNat]? = some (.function t inner) → t.upvalueCount = own.length → own.Nodup →
      (∀ j k source, Capture.source? (own :: captures) j = some source →
        Capture.source? (own :: captures) k = some source → j = k) →
      Performs inner (own :: captures) body t.code →
        Performs constants captures [.close body]
          (OpCode.closure.short i ++ own.flatMap Capture.bytes)

/-- The variable that an operand stands for in a function with given constants, where the function
and those around it capture given variables. -/
inductive Means (constants : List Constant) (captures : List (List Capture)) :
    Compiler.Reference → Binding → Prop
  | slot {slot : UInt8} : Means constants captures (.slot slot) (.local 0 slot.toNat)
  | upvalue {i : UInt8} {level slot : Nat} : Capture.source? captures i.toNat = some (level, slot) →
      Means constants captures (.upvalue i) (.local level slot)
  | global {i : UInt8} {name : String} : constants[i.toNat]? = some (.text name) →
      Means constants captures (.global i) (.global name)

namespace Means

variable {constants : List Constant} {captures : List (List Capture)} {r : Compiler.Reference}
  {b : Binding}

/-- The instruction that the compiler reads a variable with reads it. -/
theorem read (means : Means constants captures r b) :
    Performs constants captures [.read b] (r.read.1.short r.read.2) := by
  cases means with
  | slot => exact .getLocal
  | upvalue hsource => exact .getUpvalue hsource
  | global hname => exact .getGlobal hname

/-- The instruction that the compiler assigns a variable with assigns it. -/
theorem write (means : Means constants captures r b) :
    Performs constants captures [.write b] (r.write.1.short r.write.2) := by
  cases means with
  | slot => exact .setLocal
  | upvalue hsource => exact .setUpvalue hsource
  | global hname => exact .setGlobal hname

end Means

/-- The instruction that drops a local drops it, and closes it if functions inside mention it. -/
theorem Variable.discard_performs {constants : List Constant} {captures : List (List Capture)}
    (v : Variable) {captured : Bool} (closes : captured = true → v.captured = true) :
    Performs constants captures [.leave captured] v.discard.plain := by
  rw [Variable.discard]
  split
  · exact .leaveClosed
  · rename_i hopen
    rw [Bool.eq_false_iff.mpr fun hcaptured => hopen (closes hcaptured)]
    exact .leave

/-! ### Contexts -/

/-- The names of the locals in scope. -/
def Layer.names (L : Layer) : List String := L.locals.map Variable.name

namespace Context

/-- The variables of the function at hand and of the functions around it. -/
def layers (K : Context) : List Layer := K.layer :: K.outer

/-- The names of the locals in scope, function by function. -/
def scopes (K : Context) : List (List String) := K.layers.map Layer.names

/-- The captured variables, function by function. -/
def captures (K : Context) : List (List Capture) := K.layers.map Layer.captures

/-- The local in a slot of the function that is so many functions out is captured. -/
def Shares (K : Context) (level slot : Nat) : Prop :=
  ∃ L, K.layers[level]? = some L ∧ isShared slot L.locals = true

/-- In the scope of further locals the older ones are shared as before. -/
theorem Shares.older {K : Context} {added : List Variable} {level slot : Nat}
    (shares : (K.push added).Shares level slot)
    (older : level = 0 → slot < K.layer.locals.length) : K.Shares level slot := by
  obtain ⟨L, hL, hshared⟩ := shares
  cases level with
  | succ level => exact ⟨L, hL, hshared⟩
  | zero =>
      cases hL
      refine ⟨K.layer, rfl, ?_⟩
      have hslot := older rfl
      rw [← hshared]
      simp only [push, Layer.push]
      clear hshared
      induction added with
      | nil => rfl
      | cons v added ih =>
          have hnot : (added ++ K.layer.locals).length ≠ slot := by
            rw [List.length_append]
            omega
          rw [List.cons_append, isShared, if_neg hnot]
          exact ih

end Context

/-! ### Bindings in contexts -/

/-- The slot of a name does not depend on what is captured. -/
theorem newest?_names (name : String) (L : Layer) :
    Binding.newest? name L.names = slot? name L.locals := by
  rw [Layer.names]
  induction L.locals with
  | nil => rfl
  | cons v older ih => simp only [List.map_cons, Binding.newest?, slot?, List.length_map, ih]

/-- A captured variable is the local that its name means. -/
theorem Leads.source? {name : String} {captures : List Capture} {outer : List Layer} {i : Nat}
    (leads : Leads name captures outer i) : ∃ level slot,
      Binding.nearest? name (outer.map Layer.names) = some (level, slot) ∧
      Capture.source? (captures :: outer.map Layer.captures) i = some (level + 1, slot) ∧
      ∃ L, outer[level]? = some L ∧ isShared slot L.locals = true := by
  induction leads with
  | @here captures L outer i c hc hlocal hslot hshared =>
      refine ⟨0, c.index.toNat, ?_, Capture.source?_of_isLocal hc hlocal, L, rfl, hshared⟩
      simp [Binding.nearest?, newest?_names, hslot]
  | @through captures L outer i c hc hpassed hslot _ ih =>
      obtain ⟨level, slot, hnearest, hsource, hL⟩ := ih
      refine ⟨level + 1, slot, ?_, Capture.source?_of_passed hc hpassed hsource, hL⟩
      simp [Binding.nearest?, newest?_names, hslot, hnearest]

/-- A name that no function has a local for means a global. -/
theorem nearest?_eq_none {name : String} {layers : List Layer}
    (absent : ∀ L ∈ layers, slot? name L.locals = none) :
    Binding.nearest? name (layers.map Layer.names) = none := by
  induction layers with
  | nil => rfl
  | cons L layers ih =>
      have hrest := ih fun L' h => absent L' (.tail _ h)
      simp [Binding.nearest?, newest?_names, absent L (.head _), hrest]

section

variable {K : Context} {name : String} {r : Compiler.Reference} {level slot : Nat}

/-- What a name refers to is the variable that the name means. -/
theorem Refers.means (refers : Refers K name r) :
    Means K.constants K.captures r (.of name K.scopes) := by
  cases refers with
  | @slot operand hslot =>
      have : Binding.of name K.scopes = .local 0 operand.toNat := by
        simp [Binding.of, Context.scopes, Context.layers, Binding.nearest?, newest?_names, hslot]
      exact this ▸ .slot
  | upvalue hslot hleads =>
      obtain ⟨level, slot, hnearest, hsource, -⟩ := hleads.source?
      have : Binding.of name K.scopes = .local (level + 1) slot := by
        simp [Binding.of, Context.scopes, Context.layers, Binding.nearest?, newest?_names, hslot,
          hnearest]
      exact this ▸ .upvalue hsource
  | global habsent hname =>
      have : Binding.of name K.scopes = .global name := by
        rw [Binding.of, Context.scopes, Context.layers, nearest?_eq_none habsent]
      exact this ▸ .global hname

/-- A local of a function around that a name refers to is captured. -/
theorem Refers.shares (refers : Refers K name r) (outside : 0 < level)
    (means : Binding.of name K.scopes = .local level slot) : K.Shares level slot := by
  cases refers with
  | @slot operand hslot =>
      simp [Binding.of, Context.scopes, Context.layers, Binding.nearest?, newest?_names, hslot]
        at means
      omega
  | upvalue hslot hleads =>
      obtain ⟨level', slot', hnearest, -, hL⟩ := hleads.source?
      simp [Binding.of, Context.scopes, Context.layers, Binding.nearest?, newest?_names, hslot,
        hnearest] at means
      obtain ⟨rfl, rfl⟩ := means
      exact hL
  | global habsent hname =>
      rw [Binding.of, Context.scopes, Context.layers, nearest?_eq_none habsent] at means
      cases means

end

/-! ### Silent code -/

section

variable {constants : List Constant} {captures : List (List Capture)} {effects : List Effect}
  {bs ds : List UInt8}

/-- Silent code in front of other code. -/
theorem Performs.after (front : Performs constants captures [] bs)
    (rest : Performs constants captures effects ds) :
    Performs constants captures effects (bs ++ ds) := front.append rest

/-- Silent code behind other code. -/
theorem Performs.before (first : Performs constants captures effects bs)
    (rest : Performs constants captures [] ds) :
    Performs constants captures effects (bs ++ ds) := by
  simpa using first.append rest

/-- A silent instruction without operand. -/
theorem Performs.plain {op : OpCode} (narrow : op.width = 0) (silent : op.isSilent = true) :
    Performs constants captures [] op.plain :=
  .silent (.plain narrow (by rintro rfl; cases silent)) silent

/-- A silent instruction with a short operand. -/
theorem Performs.short {op : OpCode} (i : UInt8) (narrow : op.width = 1)
    (silent : op.isSilent = true) : Performs constants captures [] (op.short i) :=
  .silent (.short narrow (by rintro rfl; cases silent)) silent

/-- A silent instruction with a long operand. -/
theorem Performs.long (op : OpCode) {distance : Nat} (wide : op.width = 2)
    (silent : op.isSilent = true) (short : distance ≤ Compiler.maxJump) :
    Performs constants captures [] (op.long distance) :=
  .silent (.long wide (by rintro rfl; cases silent) short) silent

/-- The operations of an operator between two operands. -/
theorem BinaryOperator.performs (op : BinaryOperator) :
    Performs constants captures [] (op.code.flatMap OpCode.plain) := by
  have hplain : ∀ {o : OpCode}, o.width = 0 → o.isSilent = true →
      Performs constants captures [] (o.plain ++ []) := fun hwidth hsilent =>
    (Performs.plain hwidth hsilent).after .nil
  cases op with
  | notEqual | greaterEqual | lessEqual =>
      exact (Performs.plain rfl rfl).after (hplain rfl rfl)
  | equal | greater | less | add | subtract | multiply | divide => exact hplain rfl rfl

end

namespace Encoding

/-! ### Expressions -/

mutual

/-- The code of an expression has the effects of its tree. -/
theorem Expression.performs {K : Context} {e : Expr} {bs : List UInt8} : Expression K e bs →
    Performs K.constants K.captures (e.effects K.scopes) bs
  | .nil | .true | .false => by
      rw [Expr.effects]
      exact .plain rfl rfl
  | .number _ | .text _ => by
      rw [Expr.effects]
      exact .short _ rfl rfl
  | .variable hr => by
      rw [Expr.effects]
      exact hr.means.read
  | .assign hr hvalue => by
      rw [Expr.effects]
      exact hvalue.performs.append hr.means.write
  | @Expression.unary _ op _ _ hoperand => by
      rw [Expr.effects]
      exact hoperand.performs.before (by cases op <;> exact .plain rfl rfl)
  | .binary hleft hright => by
      rw [Expr.effects]
      exact (hleft.performs.append hright.performs).before (BinaryOperator.performs _)
  | .both hleft hright hshort => by
      rw [Expr.effects]
      have htest := hleft.performs.before (.long .jumpIfFalse rfl rfl hshort)
      exact (htest.append .discard).append hright.performs
  | .either hleft hright hshort => by
      rw [Expr.effects]
      have htest := hleft.performs.before
        (.long .jumpIfFalse rfl rfl (by decide : 3 ≤ Compiler.maxJump))
      have hskip := htest.before (.long .jump rfl rfl hshort)
      exact (hskip.append .discard).append hright.performs
  | .call hcallee harguments _ => by
      rw [Expr.effects]
      exact (hcallee.performs.append harguments.performs).before (.short _ rfl rfl)

/-- The code of arguments has the effects of their trees. -/
theorem Arguments.performs {K : Context} {es : List Expr} {bs : List UInt8} : Arguments K es bs →
    Performs K.constants K.captures (Expr.effectsAll K.scopes es) bs
  | .nil => by
      rw [Expr.effectsAll]
      exact .nil
  | .cons hfirst hrest => by
      rw [Expr.effectsAll]
      exact hfirst.performs.append hrest.performs

end

end Encoding

/-! ### Captured locals -/

namespace Encoding

mutual

/-- A local of a function around that an expression mentions is captured. -/
theorem Expression.shares {K : Context} {e : Expr} {bs : List UInt8} {level slot : Nat}
    (mentions : anyCaptures level slot (e.effects K.scopes) = true) : Expression K e bs →
      0 < level ∧ K.Shares level slot
  | .nil | .true | .false | .number _ | .text _ => by simp [Expr.effects, anyCaptures] at mentions
  | .variable hr => by
      simp only [Expr.effects, anyCaptures, Effect.captures, Bool.or_false, Bool.and_eq_true,
        decide_eq_true_eq] at mentions
      exact ⟨mentions.1, hr.shares mentions.1 mentions.2⟩
  | .assign hr hvalue => by
      rw [Expr.effects, anyCaptures_append, Bool.or_eq_true] at mentions
      rcases mentions with hmentions | hmentions
      · exact hvalue.shares hmentions
      · simp only [anyCaptures, Effect.captures, Bool.or_false, Bool.and_eq_true,
          decide_eq_true_eq] at hmentions
        exact ⟨hmentions.1, hr.shares hmentions.1 hmentions.2⟩
  | .unary hoperand => hoperand.shares (by rwa [Expr.effects] at mentions)
  | .binary hleft hright => by
      rw [Expr.effects, anyCaptures_append, Bool.or_eq_true] at mentions
      exact mentions.elim (fun h => hleft.shares h) fun h => hright.shares h
  | .both hleft hright _ | .either hleft hright _ => by
      simp only [Expr.effects, anyCaptures_append, anyCaptures, Effect.captures, Bool.or_false,
        Bool.or_eq_true] at mentions
      exact mentions.elim (fun h => hleft.shares h) fun h => hright.shares h
  | .call hcallee harguments _ => by
      rw [Expr.effects, anyCaptures_append, Bool.or_eq_true] at mentions
      exact mentions.elim (fun h => hcallee.shares h) fun h => harguments.shares h

/-- A local of a function around that arguments mention is captured. -/
theorem Arguments.shares {K : Context} {es : List Expr} {bs : List UInt8} {level slot : Nat}
    (mentions : anyCaptures level slot (Expr.effectsAll K.scopes es) = true) : Arguments K es bs →
      0 < level ∧ K.Shares level slot
  | .nil => by simp [Expr.effectsAll, anyCaptures] at mentions
  | .cons hfirst hrest => by
      rw [Expr.effectsAll, anyCaptures_append, Bool.or_eq_true] at mentions
      exact mentions.elim (fun h => hfirst.shares h) fun h => hrest.shares h

end

/-- The scope behind the name of a declaration. -/
theorem Declares.names {K : Context} {name : String} {ds : List UInt8} {added : List Variable}
    (declares : Declares K name added ds) :
    (K.push added).layer.names = (if K.inScope then [name] else []) ++ K.layer.names := by
  cases declares with
  | «local» captured hscope => simp [Context.push, Layer.push, Layer.names, hscope]
  | global hscope _ => simp [Context.push, Layer.push, Layer.names, hscope]

/-- A declaration adds the locals that its tree adds. -/
theorem Declaration.names {K : Context} {s : Stmt} {bs : List UInt8} {added : List Variable}
    (declaration : Declaration K s bs added) :
    (K.push added).layer.names = s.scope K.inScope ++ K.layer.names := by
  cases declaration with
  | «variable» _ declares | function _ declares => exact declares.names
  | expression | print | giveBack | block | choice | loop => rfl

/-- The test of a loop mentions captured locals of functions around. -/
theorem Test.shares {K : Context} {condition : Option Expr} {distance : Nat}
    {front back : List UInt8} {level slot : Nat} (test : Test K condition distance front back)
    (mentions : anyCaptures level slot
      (condition.elim [] fun e => e.effects K.scopes ++ [.discard]) = true) :
    K.Shares level slot := by
  cases test with
  | none => simp [anyCaptures] at mentions
  | some he _ =>
      rw [Option.elim_some, anyCaptures_append, Bool.or_eq_true] at mentions
      exact (he.shares (mentions.resolve_right (by simp [anyCaptures, Effect.captures]))).2

/-- The increment of a loop mentions captured locals of functions around. -/
theorem Step.shares {K : Context} {increment : Option Expr} {back reach : Nat}
    {middle : List UInt8} {level slot : Nat} (step : Step K increment back middle reach)
    (mentions : anyCaptures level slot
      (increment.elim [] fun e => e.effects K.scopes ++ [.discard]) = true) :
    K.Shares level slot := by
  cases step with
  | none => simp [anyCaptures] at mentions
  | some he _ =>
      rw [Option.elim_some, anyCaptures_append, Bool.or_eq_true] at mentions
      exact (he.shares (mentions.resolve_right (by simp [anyCaptures, Effect.captures]))).2

/-- The end of a declaration. -/
theorem Declares.performs {K : Context} {name : String} {ds : List UInt8} {added : List Variable}
    (declares : Declares K name added ds) :
    Performs K.constants K.captures (Stmt.defines K.inScope name) ds := by
  rw [Stmt.defines]
  cases declares with
  | «local» captured hscope =>
      rw [if_pos hscope]
      exact .nil
  | global hscope hname =>
      rw [if_neg (by simp [hscope])]
      exact .define hname

mutual

/-- A local of a function around, or a local in scope, that functions inside mention is
captured. -/
theorem Declaration.shares {K : Context} {s : Stmt} {bs : List UInt8} {added : List Variable}
    {level slot : Nat} (mentions : anyCaptures level slot
      (s.effects K.inScope K.layer.names (K.outer.map Layer.names)) = true) :
    Declaration K s bs added → (level = 0 → slot < (added ++ K.layer.locals).length) →
      (K.push added).Shares level slot
  | .expression he, _ => by
      rw [Stmt.effects, anyCaptures_append, Bool.or_eq_true] at mentions
      rcases mentions with hmentions | hmentions
      · exact (he.shares hmentions).2
      · simp [anyCaptures, Effect.captures] at hmentions
  | .print he, _ | .giveBack _ he, _ => by
      rw [Stmt.effects] at mentions
      exact (he.shares mentions).2
  | .variable he _, _ => by
      rw [Stmt.effects, anyCaptures_append, anyCaptures_defines, Bool.or_false] at mentions
      obtain ⟨hpos, hshares⟩ := he.shares mentions
      obtain ⟨level, rfl⟩ := Nat.exists_eq_succ_of_ne_zero hpos.ne'
      exact hshares
  | .function hfunction hdeclares, _ => by
      rw [Stmt.effects, anyCaptures, anyCaptures_defines, Bool.or_false, Effect.captures,
        ← hdeclares.names] at mentions
      exact hfunction.shares mentions
  | .block hbody, older => by
      rw [Stmt.effects, anyCaptures_append, anyCaptures_exits, Bool.or_false] at mentions
      have hshares : K.inside.Shares level slot := hbody.shares mentions older
      exact hshares
  | .choice hcondition hyes hno _ _, older => by
      simp only [Stmt.effects, anyCaptures_append, anyCaptures, Effect.captures, Bool.or_false,
        Bool.or_eq_true] at mentions
      obtain (hmentions | hmentions) | hmentions := mentions
      · exact (hcondition.shares hmentions).2
      · exact hyes.shares hmentions older
      · exact hno.shares hmentions older
  | .loop htest hstep hbody _, older => by
      simp only [Stmt.effects, anyCaptures_append, Bool.or_eq_true] at mentions
      obtain ((hmentions | hmentions) | hmentions) | hmentions := mentions
      · exact htest.shares hmentions
      · exact hstep.shares hmentions
      · exact hbody.shares hmentions older
      · cases htest <;> simp [anyCaptures, Effect.captures] at hmentions

/-- A local of a function around that a function mentions is captured. -/
theorem Function.shares {K : Context} {name : String} {parameters : List String}
    {body : List Stmt} {bs : List UInt8} {level slot : Nat}
    (mentions : anyCaptures (level + 1) slot (Stmt.effectsAll true (parameters.reverse ++ [""])
      K.scopes body) = true) : Function K name parameters body bs → K.Shares level slot
  | .closure _ _ _ hbody => hbody.shares mentions

/-- A local of a function around that the body of a function mentions is captured. -/
theorem Body.shares {outer : List Layer} {parameters : List String} {body : List Stmt}
    {captures : List Capture} {t : Template} {constants : List Constant} {level slot : Nat}
    (mentions : anyCaptures (level + 1) slot (Stmt.effectsAll true (parameters.reverse ++ [""])
      (outer.map Layer.names) body) = true) : Body outer parameters body captures t constants →
      ∃ L, outer[level]? = some L ∧ isShared slot L.locals = true
  | .intro _ _ _ _ _ _ _ hown hbody => by
      rw [← hown] at mentions
      exact hbody.shares mentions (fun h => absurd h (Nat.succ_ne_zero level))

/-- A local that functions inside mention among declarations is captured. -/
theorem Declarations.shares {K : Context} {ss : List Stmt} {bs : List UInt8}
    {added : List Variable} {level slot : Nat} (mentions : anyCaptures level slot
      (Stmt.effectsAll K.inScope K.layer.names (K.outer.map Layer.names) ss) = true) :
    Declarations K ss bs added → (level = 0 → slot < K.layer.locals.length) →
      K.Shares level slot
  | .nil, _ => by simp [Stmt.effectsAll, anyCaptures] at mentions
  | @Declarations.cons _ _ _ _ _ first _ hfirst hrest, older => by
      rw [Stmt.effectsAll, anyCaptures_append, Bool.or_eq_true] at mentions
      have hwider : level = 0 → slot < (first ++ K.layer.locals).length := fun h => by
        rw [List.length_append]
        exact Nat.lt_add_left _ (older h)
      have hshares : (K.push first).Shares level slot := by
        rcases mentions with hmentions | hmentions
        · exact hfirst.shares hmentions hwider
        · rw [← hfirst.names] at hmentions
          exact hrest.shares hmentions hwider
      exact hshares.older older

end

/-! ### Statements -/

/-- A statement adds one local at most, the one that its tree adds. -/
theorem Declaration.added {K : Context} {s : Stmt} {bs : List UInt8} {added : List Variable}
    (declaration : Declaration K s bs added) (inScope : K.inScope = true) :
    added = [] ∧ s.scope true = [] ∨ ∃ v, added = [v] ∧ s.scope true = [v.name] := by
  cases declaration with
  | «variable» _ declares | function _ declares =>
      cases declares with
      | «local» captured _ => exact .inr ⟨_, rfl, rfl⟩
      | global hscope _ => exact absurd inScope (by simp [hscope])
  | expression | print | giveBack | block | choice | loop => exact .inl ⟨rfl, rfl⟩

/-- The end of a block leaves its locals, and closes those that functions inside mention. -/
theorem Declarations.leaves {K : Context} {ss : List Stmt} {bs : List UInt8}
    {added : List Variable} (declarations : Declarations K ss bs added)
    (inScope : K.inScope = true) :
    Performs K.constants K.captures (Stmt.exits K.layer.names (K.outer.map Layer.names) ss)
      (added.flatMap fun v => v.discard.plain) := by
  induction ss generalizing K bs added with
  | nil =>
      cases declarations
      exact .nil
  | cons s others ih =>
      cases declarations with
      | @cons _ _ _ _ _ first more hfirst hrest =>
          have hothers := ih hrest inScope
          have hnames := hfirst.names
          rw [inScope] at hnames
          rw [Stmt.exits, List.flatMap_append, ← hnames]
          refine hothers.append ?_
          obtain ⟨rfl, hscope⟩ | ⟨v, rfl, hscope⟩ := hfirst.added inScope
          · rw [hscope]
            exact .nil
          · rw [hscope]
            refine v.discard_performs fun hmentions => ?_
            have hshares : (K.push [v]).Shares 0 K.layer.names.length := by
              rw [anyCaptures_append, Bool.or_eq_true] at hmentions
              have hbound : K.layer.names.length < ([v] ++ K.layer.locals).length := by
                simp [Layer.names]
              rcases hmentions with hmentions | hmentions
              · exact hfirst.shares (by rwa [inScope]) fun _ => hbound
              · exact hrest.shares (by rwa [show (K.push [v]).inScope = true from inScope])
                  fun _ => hbound
            obtain ⟨L, hL, hshared⟩ := hshares
            cases hL
            simpa [Context.push, Layer.push, isShared, Layer.names] using hshared

/-- The test of a loop. -/
theorem Test.performs {K : Context} {condition : Option Expr} {distance : Nat}
    {front back : List UInt8} (test : Test K condition distance front back) :
    Performs K.constants K.captures
      (condition.elim [] fun e => e.effects K.scopes ++ [.discard]) front ∧
    Performs K.constants K.captures (condition.elim [] fun _ => [.discard]) back := by
  cases test with
  | none => exact ⟨.nil, .nil⟩
  | some he hshort =>
      exact ⟨(he.performs.before (.long .jumpIfFalse rfl rfl hshort)).append .discard, .discard⟩

/-- The increment of a loop. -/
theorem Step.performs {K : Context} {increment : Option Expr} {back reach : Nat}
    {middle : List UInt8} (step : Step K increment back middle reach) :
    Performs K.constants K.captures
      (increment.elim [] fun e => e.effects K.scopes ++ [.discard]) middle := by
  cases step with
  | none => exact .nil
  | @some _ _ bs he hshort =>
      have hjump : bs.length + 4 ≤ Compiler.maxJump := by omega
      have hvalue := (Performs.long .jump rfl rfl hjump).after he.performs
      exact (hvalue.append .discard).before (.long .loop rfl rfl hshort)

mutual

/-- The code of a declaration has the effects of its tree. -/
theorem Declaration.performs {K : Context} {s : Stmt} {bs : List UInt8} {added : List Variable} :
    Declaration K s bs added → (∀ captures ∈ K.captures, captures.Nodup) →
      Performs K.constants K.captures
        (s.effects K.inScope K.layer.names (K.outer.map Layer.names)) bs
  | .expression he, _ => by
      rw [Stmt.effects]
      exact he.performs.append .discard
  | .print he, _ | .giveBack _ he, _ => by
      rw [Stmt.effects]
      exact he.performs.before (.plain rfl rfl)
  | .variable he hdeclares, _ => by
      rw [Stmt.effects]
      exact he.performs.append hdeclares.performs
  | .function hfunction hdeclares, distinct => by
      rw [Stmt.effects, ← hdeclares.names]
      exact (hfunction.performs distinct).append hdeclares.performs
  | .block hbody, distinct => by
      rw [Stmt.effects]
      exact (hbody.performs distinct).append (hbody.leaves rfl)
  | .choice hcondition hyes hno hshort hshort', distinct => by
      rw [Stmt.effects]
      have htest := hcondition.performs.before (.long .jumpIfFalse rfl rfl hshort)
      have hfirst := ((htest.append .discard).append (hyes.performs distinct)).before
        (.long .jump rfl rfl hshort')
      exact (hfirst.append .discard).append (hno.performs distinct)
  | .loop htest hstep hbody hshort, distinct => by
      rw [Stmt.effects]
      have hround := (htest.performs.1.append hstep.performs).append (hbody.performs distinct)
      exact (hround.before (.long .loop rfl rfl hshort)).append htest.performs.2

/-- The code that makes a closure. -/
theorem Function.performs {K : Context} {name : String} {parameters : List String}
    {body : List Stmt} {bs : List UInt8} : Function K name parameters body bs →
    (∀ captures ∈ K.captures, captures.Nodup) →
      Performs K.constants K.captures
        [.close (Stmt.effectsAll true (parameters.reverse ++ [""]) K.scopes body)] bs
  | .closure hfound _ _ hbody, distinct => by
      obtain ⟨hcount, hown, hcode⟩ := hbody.performs distinct
      refine .close hfound hcount hown (fun j k source hj hk => ?_) hcode
      exact Capture.source?_inj (List.forall_mem_cons.mpr ⟨hown, distinct⟩) hj hk

/-- The code of the body of a function. -/
theorem Body.performs {outer : List Layer} {parameters : List String} {body : List Stmt}
    {captures : List Capture} {t : Template} {constants : List Constant} :
    Body outer parameters body captures t constants →
    (∀ captures ∈ outer.map Layer.captures, captures.Nodup) →
      t.upvalueCount = captures.length ∧ captures.Nodup ∧
        Performs constants (captures :: outer.map Layer.captures) (Stmt.effectsAll true
          (parameters.reverse ++ [""]) (outer.map Layer.names) body) t.code
  | .intro _ _ hcount _ hown hcode _ hnames hbody, distinct => by
      refine ⟨hcount, hown, ?_⟩
      have hinner := hbody.performs (List.forall_mem_cons.mpr ⟨hown, distinct⟩)
      rw [hcode, ← hnames]
      exact (hinner.before (.plain rfl rfl)).before (.plain rfl rfl)

/-- The code of declarations has the effects of their trees. -/
theorem Declarations.performs {K : Context} {ss : List Stmt} {bs : List UInt8}
    {added : List Variable} : Declarations K ss bs added →
    (∀ captures ∈ K.captures, captures.Nodup) →
      Performs K.constants K.captures
        (Stmt.effectsAll K.inScope K.layer.names (K.outer.map Layer.names) ss) bs
  | .nil, _ => by
      rw [Stmt.effectsAll]
      exact .nil
  | .cons hfirst hrest, distinct => by
      rw [Stmt.effectsAll, ← hfirst.names]
      exact (hfirst.performs distinct).append (hrest.performs distinct)

end

/-- The code of a script has the effects of its tree. -/
theorem Script.performs {program : List Stmt} {t : Template} {constants : List Constant}
    (script : Script program t constants) :
    Performs constants [[]] (Stmt.effectsAll false [""] [] program) t.code := by
  obtain ⟨bs, own, hcode, hown, hbody⟩ := script.code
  have hinner := hbody.performs (List.forall_mem_singleton.mpr List.nodup_nil)
  rw [hcode, ← hown]
  exact (hinner.before (.plain rfl rfl)).before (.plain rfl rfl)

end Encoding

/-! ### Accepted programs -/

/-- Names resolve lexically in every accepted program. The source is that of a tree, and the
instructions of the script, and of the functions in it, do with variables what the tree says. Each
name stands for the newest local of this name in scope in the function at hand, else in the nearest
function around that has one, where following the captures leads to the slot of this local; else it
stands for a global of this name. -/
theorem compile_binds {source : String} {held : List Handle} {heap heap' : Heap} {script : Handle}
    (valid : heap.Valid) (live : ∀ h ∈ held, heap.Live h)
    (run : compile (.ofSource source) held heap = .ok (.ok script) heap') :
    ∃ program t constants, Grammar.Declarations (TokenStream.ofSource source).pending program ∧
      heap'.Holds (.object script) (.function t constants) ∧
      Performs constants [[]] (Stmt.effectsAll false [""] [] program) t.code := by
  obtain ⟨-, -, program, t, constants, hgrammar, hholds, hscript, -⟩ :=
    compile_sound (terminated_ofSource source) valid live run
  exact ⟨program, t, constants, hgrammar, hholds, hscript.performs⟩

/-- A function inside two others, which assigns the local of a block and a parameter. Both have
namesakes: one has a global, the other a local of a block that has ended. -/
def nestedSource : String :=
  "var a; fun f(a) " ++
    "{ { var b; } { var b = a; fun g() { fun h() { b = a; a = c; } } { var a = b; } } }"

/-- Names resolve lexically in the nested functions. -/
theorem compile_binds_nested :
    ∃ heap', compile (.ofSource nestedSource) [] (.empty {}) = .ok (.ok ⟨8⟩) heap' ∧
      ∃ program t constants,
        Grammar.Declarations (TokenStream.ofSource nestedSource).pending program ∧
        heap'.Holds (.object ⟨8⟩) (.function t constants) ∧
        Performs constants [[]] (Stmt.effectsAll false [""] [] program) t.code := by
  have accepted : script? (compile (.ofSource nestedSource) [] (.empty {})) = some ⟨8⟩ := by
    decide +kernel
  obtain ⟨heap', run⟩ := eq_ok_of_script? accepted
  exact ⟨heap', run, compile_binds (Heap.valid_empty {}) (List.forall_mem_nil _) run⟩

end Lox
