import Lox.Proofs.Compile.Lawful.Expressions
import Lox.Proofs.Compile.Scoping

/-!
# Scopes and declarations that keep the rules

The names that a tree tells to be in scope are those of the locals at the place of the compiler. A
declaration adds its name to both, and the end of a block takes the names of the block away again.
What the tree tells about names is therefore all that is asked for: a name may be mentioned, a new
local finds a slot, and no other local of its scope has its name.

## Main definitions

* `Draft.deeper`, `Draft.declaring`, `Draft.initializing` — what scopes and declarations make of a
  place.
* `Compiler.Placed` — the place is the one that a tree tells of.

## Main results

* `closeScope_spends` — the end of a block.
* `variableName_spends_local`, `defineVariable_spends_local` — the two ends of a declaration.
-/

namespace Lox

namespace Draft

variable {o d : Draft} {name : String} {names more : List String}

/-- A draft in one more scope. -/
def deeper (o : Draft) : Draft := { o with depth := o.depth + 1 }

/-- A draft with more locals in its innermost scope. The names are given newest first. -/
def declaring (o : Draft) (names : List String) : Draft :=
  { o with locals := names.map (fun name => ⟨name, some o.depth, false⟩) ++ o.locals }

/-- A draft with a local whose initializer is being compiled. -/
def initializing (o : Draft) (name : String) : Draft :=
  { o with locals := ⟨name, none, false⟩ :: o.locals }

theorem declaring_declaring (o : Draft) (names more : List String) :
    (o.declaring names).declaring more = o.declaring (more ++ names) := by
  simp [declaring]

/-- Only the locals matter for the newest one. -/
theorem markNewest_eq (d : Draft) : d.markNewest = { d with locals := d.markNewest.locals } := by
  unfold markNewest
  split <;> rfl

theorem length_markNewest (d : Draft) : d.markNewest.locals.length = d.locals.length := by
  unfold markNewest
  split
  · rfl
  · rename_i heq
    simp [heq]

theorem markNewest_bare (d : Draft) : { d.markNewest.bare with chunk := {} } =
    ({ d.bare with chunk := {} } : Draft).markNewest := by
  cases hlocals : d.locals <;> simp [markNewest, bare, hlocals]

/-- Captured or not, a local belongs to its scope. -/
theorem isWithin_bare (depth : Nat) :
    (isWithin depth ∘ fun l => { l with captured := false }) = isWithin depth := rfl

/-- Captured or not, a local is declared. -/
theorem declares_bare (d : Draft) (name : String) : d.bare.declares name = d.declares name := by
  simp only [declares, bare, List.takeWhile_map, isWithin_bare, List.any_map]
  rfl

/-- A scope has the locals that have been declared in it. -/
theorem declares_declaring (new : name ∉ names) (free : o.declares name = false) :
    (o.declaring names).declares name = false := by
  have hwithin : ∀ l ∈ names.map fun name => (⟨name, some o.depth, false⟩ : Local),
      isWithin o.depth l = true := by
    simp [isWithin]
  have hall : (o.declaring names).declares name =
      ((names.map fun name => (⟨name, some o.depth, false⟩ : Local)).any (·.name = name) ||
        o.declares name) := by
    simp only [declares, declaring, List.takeWhile_append_of_pos hwithin, List.any_append]
  rw [hall, free, Bool.or_false]
  simpa using fun x hx (heq : x = name) => new (heq ▸ hx)

/-- A new scope has no locals. -/
theorem declares_deeper (settled : o.Settled) (name : String) : o.deeper.declares name = false := by
  have hnone := (Compiler.locals_of_scope (List.forall_mem_nil _) settled).1
  rw [List.nil_append] at hnone
  simp only [declares, deeper, hnone]
  rfl

/-- Locals that may be used in one scope may be used in a scope inside it. -/
theorem settled_deeper (settled : o.Settled) : o.deeper.Settled := fun l hl => by
  obtain ⟨k, hk, hdepth⟩ := settled l hl
  exact ⟨k, Nat.le_succ_of_le hk, hdepth⟩

theorem settled_declaring (settled : o.Settled) (names : List String) :
    (o.declaring names).Settled := fun l hl => by
  rcases List.mem_append.mp hl with hl | hl
  · obtain ⟨name, -, rfl⟩ := List.mem_map.mp hl
    exact ⟨_, Nat.le_refl _, rfl⟩
  · exact settled l hl

end Draft

namespace Compiler

variable {c c' : Compiler} {o o' d : Draft} {outer : List Draft} {W : List (List (Nat × Nat))}
  {wanted : List (Nat × Nat)} {isLocal : Bool} {own names : List String}
  {around : List (List String)} {room : Nat} {t : Token} {ts : List Token}
    {e : Expr} {name : String}
  {what : Expectation} {i : UInt8} {u : Unit}

/-! ### Places that a tree tells of -/

/-- The innermost function and those around it have the locals that a tree tells, and all of them
may be used. -/
structure Placed (o : Draft) (outer : List Draft) (isLocal : Bool) (own : List String)
    (around : List (List String)) : Prop where
  names : o.locals.map (·.name) = own
  enclosing : Draft.scopesOf outer = around
  depth : decide (0 < o.depth) = isLocal
  settled : o.Settled
  inner : around ≠ [] → o.isScript = false

namespace Placed

theorem scopes (placed : Placed o outer isLocal own around) :
    Draft.scopesOf (o :: outer) = own :: around := by
  rw [← placed.names, ← placed.enclosing]
  rfl

theorem deeper (placed : Placed o outer isLocal own around) :
    Placed o.deeper outer true own around :=
  ⟨placed.names, placed.enclosing, decide_eq_true (Nat.succ_pos _),
    Draft.settled_deeper placed.settled, placed.inner⟩

theorem declaring (placed : Placed o outer isLocal own around) (names : List String) :
    Placed (o.declaring names) outer isLocal (names ++ own) around := by
  refine ⟨?_, placed.enclosing, placed.depth, Draft.settled_declaring placed.settled names,
    placed.inner⟩
  simp [Draft.declaring, ← placed.names, Function.comp_def]

/-- An expression that keeps the rules. -/
theorem fine (placed : Placed o outer isLocal own around) (lawful : e.Lawful)
    (sub : outsideAll (e.effects (own :: around)) ⊆ wanted) :
    Fine (wanted :: W) (o :: outer) e := by
  refine ⟨lawful, (Expr.mentions_of_outside sub).and (fun name hsub _ => ⟨?_, ?_⟩)
    (Expr.mentions_of_outside sub)⟩
  · rintro d ⟨⟩ l hl -
    obtain ⟨k, -, hk⟩ := placed.settled l hl
    simp [hk]
  · intro v hv
    rw [placed.scopes] at hv
    exact ⟨wanted, rfl, hsub hv⟩

/-- The constants that an expression takes at the place. -/
theorem constantsAt_le (placed : Placed o outer isLocal own around) (e : Expr) :
    constantsAt (o :: outer) e ≤ e.constants (own :: around) :=
  Nat.le_of_eq (congrArg (Expr.constants · e) placed.scopes)

/-- An initializer that does not mention its local. -/
theorem fine_initializing (placed : Placed o outer isLocal own around) (lawful : e.Lawful)
    (sub : outsideAll (e.effects (own :: around)) ⊆ wanted) (fresh : e.Mentions (· ≠ name)) :
    Fine (wanted :: W) (o.initializing name :: outer) e ∧
      constantsAt (o.initializing name :: outer) e = e.constants (own :: around) := by
  have hscopes : Draft.scopesOf (o.initializing name :: outer) = (name :: own) :: around := by
    rw [← placed.names, ← placed.enclosing]
    rfl
  refine ⟨⟨lawful, fresh.and (fun other hne hsub => ⟨?ready, ?captured⟩)
    (Expr.mentions_of_outside sub)⟩, ?constants⟩
  case ready =>
    rintro d ⟨⟩ l hl hname
    rcases List.mem_cons.mp hl with rfl | hl
    · exact absurd hname.symm hne
    · obtain ⟨k, -, hk⟩ := placed.settled l hl
      simp [hk]
  case captured =>
    intro v hv
    rw [hscopes, Binding.of_fresh hne] at hv
    exact ⟨wanted, rfl, hsub hv⟩
  case constants => simp only [constantsAt, hscopes, Expr.constants_fresh fresh]

end Placed

/-! ### Changing the draft -/

/-- The innermost function of the place. -/
theorem Stands.head (stands : c.Stands W (o :: outer) room ts) :
    { c.draft.bare with chunk := {} } = o := (List.cons.inj stands.place).1

theorem Stands.depth (stands : c.Stands W (o :: outer) room ts) : c.draft.depth = o.depth := by
  have hdepth := congrArg Draft.depth stands.head
  exact hdepth

/-- A change of the draft that keeps its captures. -/
theorem Stands.adjust (stands : c.Stands W (o :: outer) room ts)
    (head : { d.bare with chunk := {} } = o') (captures : d.captures = c.draft.captures)
    (locals : d.locals.length ≤ Draft.maxLocals)
    (constants : d.chunk.constants.size ≤ c.draft.chunk.constants.size) :
    ({ c with draft := d } : Compiler).Stands W (o' :: outer) room ts := by
  refine ⟨stands.sees.congr rfl rfl rfl rfl, ?_, ?_, ?_⟩
  · rw [Compiler.place, head, ← (List.cons.inj stands.place).2]
  · have hroomy := stands.roomy
    cases W with
    | nil => exact hroomy.elim
    | cons wanted others => exact ⟨hroomy.1.update locals captures, hroomy.2⟩
  · have := stands.room
    simp only
    omega

/-- There is a slot for each of the locals. -/
theorem Stands.locals (stands : c.Stands W (o :: outer) room ts) :
    c.draft.locals.length ≤ Draft.maxLocals := by
  have hroomy := stands.roomy
  cases W with
  | nil => exact hroomy.elim
  | cons wanted others => exact hroomy.1.locals

/-! ### Scopes -/

theorem openScope_stays : Spends W (o :: outer) (o.deeper :: outer) [] Anything 0 0 openScope := by
  intro room rest c _ c' stands _ run
  rw [Nat.zero_add] at stands
  cases run
  obtain rfl := stands.head
  exact ⟨stands.adjust rfl rfl stands.locals (Nat.le_refl _), Nat.le_refl _⟩

/-- The end of a block. Its locals leave the stack one by one. -/
theorem closeScope_spends (settled : o.Settled) (names : List String) :
    Spends W (o.deeper.declaring names :: outer) (o :: outer) [] Anything 0 names.length
      closeScope := by
  intro room rest c _ c' stands _ run
  rw [Nat.zero_add] at stands
  have closes := closeScope_closes run
  have hdepth : c.draft.depth = o.depth + 1 := stands.depth
  have hlocals : c.draft.locals.map (fun l => { l with captured := false }) =
      names.map (fun name => ⟨name, some (o.depth + 1), false⟩) ++ o.locals :=
    congrArg Draft.locals stands.head
  have hinner : ∀ l ∈ names.map fun name => (⟨name, some (o.depth + 1), false⟩ : Local),
      l.depth = some (o.depth + 1) := by simp
  obtain ⟨htake, hdrop⟩ := locals_of_scope hinner settled
  rw [← hlocals, List.takeWhile_map] at htake
  rw [← hlocals, List.dropWhile_map] at hdrop
  have hcount := congrArg List.length htake
  have hrest := closes.rest
  have hcode := congrArg List.length closes.code
  simp only [hdepth, Nat.add_sub_cancel] at hrest hcode
  have hhead :
      ({ c.draft.bare with chunk := {}, depth := o.depth, locals := o.locals } : Draft) = o :=
    congrArg (fun d : Draft => { d with depth := o.depth, locals := o.locals }) stands.head
  refine ⟨?_, ?_⟩
  · rw [hrest]
    refine stands.adjust (Eq.trans ?_ hhead) rfl ?_ (Nat.le_refl _)
    · simp only [Draft.bare, ← hdrop, Draft.isWithin_bare]
    · exact (List.dropWhile_suffix _).length_le.trans stands.locals
  · have hplain : ∀ l : Local, (discard l).plain.length = 1 := fun l => OpCode.length_plain _
    simp only [List.length_append, List.length_flatMap, hplain, Array.length_toList] at hcode
    simp only [List.length_map, Draft.isWithin_bare] at hcount
    exact Nat.le_of_eq (by simpa [hcount, written] using hcode)

/-! ### Declarations -/

/-- A new local. -/
theorem declareVariable_stands (stands : c.Stands W (o :: outer) room ts) (deep : 0 < o.depth)
    (new : o.declares c.previous.lexeme = false) (slot : o.locals.length < Draft.maxLocals)
    (run : declareVariable c = .ok u c') :
    c'.Stands W (o.initializing c.previous.lexeme :: outer) room ts ∧ c'.written = c.written := by
  have hdeep : 0 < c.draft.depth := stands.depth ▸ deep
  obtain rfl := stands.head
  have hlength : c.draft.locals.length < Draft.maxLocals := by
    simpa [Draft.bare] using slot
  have hnew : c.draft.declares c.previous.lexeme = false :=
    (Draft.declares_bare c.draft _).symm.trans new
  rw [declareVariable, bind_of_ok (inScope_apply c), if_pos (decide_eq_true hdeep),
    bind_of_ok (get_apply c)] at run
  simp only [hnew, Bool.false_eq_true, if_false, addLocal] at run
  rw [bind_of_ok (get_apply c), if_neg (Nat.ne_of_lt hlength)] at run
  cases run
  exact ⟨stands.adjust rfl rfl hlength (Nat.le_refl _), rfl⟩

theorem variableName_spends_local (kind : t.kind = .identifier) (deep : 0 < o.depth)
    (new : o.declares t.lexeme = false) (slot : o.locals.length < Draft.maxLocals) :
    Spends W (o :: outer) (o.initializing t.lexeme :: outer) [t] Anything 0 0
      (variableName what) := by
  intro room rest c i c' stands _ run
  rw [Nat.zero_add] at stands
  obtain ⟨mid, hadvance, hmid, hprevious, hwritten⟩ := stands.advance
  have hkind : c.current.kind = .identifier := stands.current_cons.trans kind
  have hexpect : expect .identifier what c = .ok () mid := by
    rw [expect, bind_of_ok (check_apply _ c), if_pos (by simpa using hkind), hadvance]
  rw [variableName, bind_of_ok hexpect] at run
  obtain ⟨_, last, hdeclare, run⟩ := bind_eq_ok_iff.mp run
  rw [← hprevious] at new ⊢
  obtain ⟨hlast, hwritten'⟩ := declareVariable_stands hmid deep new slot hdeclare
  have hdeep : 0 < last.draft.depth := hlast.depth ▸ deep
  rw [bind_of_ok (inScope_apply last), if_pos (decide_eq_true hdeep)] at run
  cases run
  exact ⟨hlast, Nat.le_of_eq (hwritten'.trans hwritten)⟩

theorem variableName_spends_global (kind : t.kind = .identifier) (flat : ¬ 0 < o.depth) :
    Spends W (o :: outer) (o :: outer) [t] Anything 1 0 (variableName what) := by
  refine .expect kind ?_
  intro room rest c i c' stands hnext run
  have hflat : ¬ 0 < c.draft.depth := stands.depth ▸ flat
  have hdeclare : declareVariable c = .ok () c := by
    rw [declareVariable, bind_of_ok (inScope_apply c), if_neg (by simpa using hflat)]
    rfl
  rw [bind_of_ok hdeclare, bind_of_ok (inScope_apply c), if_neg (by simpa using hflat)] at run
  exact nameConstant_stays _ stands hnext run

/-- The newest local may be used. -/
theorem markInitialized_spends_local (deep : 0 < o.depth) :
    Spends W (o :: outer) (o.markNewest :: outer) [] Anything 0 0 markInitialized := by
  intro room rest c _ c' stands _ run
  rw [Nat.zero_add] at stands
  rcases markInitialized_cases run with ⟨hzero, -⟩ | ⟨-, rfl⟩
  · exact absurd (stands.depth ▸ hzero) (Nat.ne_of_gt deep)
  · have hlength := stands.locals
    rw [← Draft.length_markNewest] at hlength
    have hmark := Draft.markNewest_eq c.draft
    obtain rfl := stands.head
    refine ⟨stands.adjust (Draft.markNewest_bare c.draft) ?_ hlength ?_, Nat.le_of_eq ?_⟩
    · rw [hmark]
    · rw [hmark]
    · rw [initialized, written, hmark]
      rfl

theorem markInitialized_stays_global (flat : ¬ 0 < o.depth) :
    Stays W (o :: outer) 0 0 markInitialized := by
  intro room rest c _ c' stands _ run
  rw [Nat.zero_add] at stands
  rcases markInitialized_cases run with ⟨-, rfl⟩ | ⟨hdeep, -⟩
  · exact ⟨stands, Nat.le_refl _⟩
  · exact absurd (stands.depth ▸ hdeep) flat

theorem defineVariable_spends_local (deep : 0 < o.depth) (global : UInt8) :
    Spends W (o :: outer) (o.markNewest :: outer) [] Anything 0 0 (defineVariable global) := by
  intro room rest c _ c' stands hnext run
  have hdeep : 0 < c.draft.depth := stands.depth ▸ deep
  rw [defineVariable, bind_of_ok (inScope_apply c), if_pos (decide_eq_true hdeep)] at run
  exact markInitialized_spends_local deep stands hnext run

/-- The initializer of a local ends. -/
theorem defineVariable_spends_initializing (deep : 0 < o.depth) (global : UInt8) :
    Spends W (o.initializing name :: outer) (o.declaring [name] :: outer) [] Anything 0 0
      (defineVariable global) :=
  defineVariable_spends_local (o := o.initializing name) deep global

theorem defineVariable_stays_global (flat : ¬ 0 < o.depth) (global : UInt8) :
    Stays W (o :: outer) 0 2 (defineVariable global) := by
  intro room rest c _ c' stands hnext run
  have hflat : ¬ 0 < c.draft.depth := stands.depth ▸ flat
  rw [defineVariable, bind_of_ok (inScope_apply c), if_neg (by simpa using hflat)] at run
  exact emitWith_stays _ _ stands hnext run

end Compiler

end Lox
