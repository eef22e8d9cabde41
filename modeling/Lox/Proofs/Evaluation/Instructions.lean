import Lox.Proofs.Evaluation.Following

/-!
# Instructions and the evaluator

What single instructions do to a machine that stands in the middle of a call, in terms of the
evaluator.

## Main definitions

* `Eval.Yields` — the machine with the value of an expression on its stack.

## Main results

* `unary_answers`, `read_answers`, `assign_answers`, `print_answers` — instructions.
* `binary_follows` — the operators, some of which take two instructions.
-/

namespace Lox.Eval

variable {α : Type} {p : Printout} {n : Nat} {w : World} {r s : Reference} {F : Site}
  {own : List String} {temps ds : List Datum} {ip i : Nat} {d e : Datum} {name text : String}
  {k : Constant}

/-- The value of an expression is on the stack. -/
abbrev Yields (p : Printout) (F : Site) (own : List String) (temps : List Datum)
    (ip : Nat) (d : Datum) (w : World) (s : Reference) : Prop :=
  Stands p F own w (temps ++ [d]) ip s

/-! ### The stack -/

/-- Pushing a datum on a stack that is known. -/
theorem push_lays (agrees : Agrees p w r) (lays : Reference.Lays r.store r.stack ds) (d : Datum) :
    Answers p (fun (_ : Unit) w s => Agrees p w s ∧ Reference.Lays s.store s.stack (ds ++ [d]) ∧
      s.calls = r.calls ∧ s.callables = r.callables) (.ok () w) (Reference.push d r) := by
  by_cases full : r.stackMax ≤ r.stack.size
  · rw [Reference.push, if_pos full]
    exact overflow_answers
  · rw [Reference.push_apply (Nat.not_le.mp full)]
    exact .ok ⟨agrees.withStack _ _ r.calls, lays.push d, rfl, rfl⟩

/-- Pushing a datum. -/
theorem push_answers (stands : Stands p F own w temps ip r) (d : Datum) :
    Answers p (Yields p F own temps ip) (.ok d w) (Reference.push d r) := by
  refine (push_lays stands.toAgrees stands.lays d).as ?_
  rintro s ⟨hagrees, hlays, hcalls, hcallables⟩
  rw [List.append_assoc] at hlays
  exact { hagrees with
    kept := hcallables ▸ stands.kept, calls := hcalls.trans stands.calls, lays := hlays
    names := stands.names }

/-- Popping the datum on top. -/
theorem Stands.pop (stands : Stands p F own w (temps ++ [d]) ip r) :
    ∃ s, Reference.pop r = .ok d s ∧ Stands p F own w temps ip s := by
  have hlays := stands.lays
  rw [← List.append_assoc] at hlays
  exact ⟨_, Reference.pop_apply hlays, { stands.withStack r.store r.stack.pop r.calls with
    kept := stands.kept, calls := stands.calls, lays := hlays.pop, names := stands.names }⟩

/-- Looking at a datum. -/
theorem Stands.peek {ds : List Datum} (stands : Stands p F own w (temps ++ d :: ds) ip r) :
    Reference.peek ds.length r = .ok d r := by
  have hlays := stands.lays
  rw [← List.append_assoc] at hlays
  exact Reference.peek_apply hlays

/-- Looking at the datum on top. -/
theorem Stands.top (stands : Stands p F own w (temps ++ [d]) ip r) : Reference.peek 0 r = .ok d r :=
  (stands.peek : Reference.peek ([] : List Datum).length r = .ok d r)

/-- Looking at the datum under the one on top. -/
theorem Stands.second (stands : Stands p F own w (temps ++ [d] ++ [e]) ip r) :
    Reference.peek 1 r = .ok d r := by
  rw [List.append_assoc] at stands
  exact (stands.peek : Reference.peek [e].length r = .ok d r)

/-! ### Constants -/

/-- The closure of the innermost call. -/
theorem Stands.current (stands : Stands p F own w temps ip r) :
    ∃ k, Reference.current r = .ok k r ∧ k.constants = F.closure.constants := by
  obtain ⟨k, hk, -, hconstants⟩ := stands.closure
  refine ⟨k, ?_, hconstants⟩
  rw [Reference.current, bind_of_ok (Reference.activation_of stands.calls),
    bind_of_ok (get_apply r), hk]
  rfl

/-- A constant of the function. -/
theorem Stands.constant (stands : Stands p F own w temps ip r)
    (found : F.closure.constants[i]? = some k) : Reference.constant i r = .ok k r := by
  obtain ⟨k', hcurrent, hconstants⟩ := stands.current
  rw [Reference.constant, bind_of_ok hcurrent, hconstants, found]
  rfl

/-- A constant that names a global. -/
theorem Stands.nameConstant (stands : Stands p F own w temps ip r)
    (found : F.closure.constants[i]? = some (.text name)) :
    Reference.nameConstant i r = .ok name r := by
  rw [Reference.nameConstant, bind_of_ok (stands.constant found)]
  rfl

/-- A literal among the constants. -/
theorem literal_follows {index : UInt8} (stands : Stands p F own w temps ip r)
    (reads : F.Reads ip (OpCode.constant.short index))
    (found : F.closure.constants[index.toNat]? = some k)
    (literal : (∃ x, k = .number x ∧ d = .number x) ∨ ∃ text, k = .text text ∧ d = .text text) :
    Follows p n (Yields p F own temps (ip + 2)) (.ok d w) r := by
  refine stands.follows reads (.short rfl nofun) nofun fun s hs => ?_
  have hliteral : Reference.literal index.toNat s = .ok d s := by
    rw [Reference.literal, bind_of_ok (hs.constant found)]
    rcases literal with ⟨x, rfl, rfl⟩ | ⟨text, rfl, rfl⟩ <;> rfl
  simp only [Reference.execute]
  rw [bind_of_ok hliteral]
  exact push_answers hs d

/-! ### Operators -/

/-- An instruction without operand. -/
theorem Stands.plain_follows {op : OpCode} {good : α → World → Reference → Prop}
    {x : EStateM.Result Stop World α} (stands : Stands p F own w temps ip r)
    (reads : F.Reads ip op.plain) (bare : op.width = 0) (ne : op ≠ .giveBack)
    (answers : ∀ s, Stands p F own w temps (ip + 1) s →
      Answers p good x (Reference.execute op 0 s)) : Follows p n good x r := by
  refine stands.follows reads (.plain bare fun heq => ?_) ne fun s hs => answers s ?_
  · rw [heq] at bare
    cases bare
  · rwa [bare] at hs

/-- The operators in front of one operand. -/
theorem unary_answers (op : UnaryOperator) (stands : Stands p F own w (temps ++ [d]) ip r) :
    Answers p (Yields p F own temps ip) (unary op d w) (Reference.execute op.code 0 r) := by
  obtain ⟨s, hpop, hs⟩ := stands.pop
  cases op with
  | not =>
      simp only [UnaryOperator.code, Reference.execute]
      rw [bind_of_ok hpop]
      exact push_answers hs _
  | negate =>
      simp only [UnaryOperator.code, Reference.execute]
      rw [Reference.negate, bind_of_ok stands.top]
      cases d with
      | number x =>
          simp only [unary]
          rw [bind_of_ok hpop]
          exact push_answers hs _
      | nil | bool | text | callable => exact raise_answers stands.toAgrees _

/-- The operators in front of one operand are followed. -/
theorem unary_follows (op : UnaryOperator) (stands : Stands p F own w (temps ++ [d]) ip r)
    (reads : F.Reads ip op.code.plain) :
    Follows p n (Yields p F own temps (ip + 1)) (unary op d w) r :=
  stands.plain_follows reads (by cases op <;> rfl) (by cases op <;> decide)
    fun s hs => unary_answers op hs

/-- Two operands are taken off the stack, and something else is put there. -/
theorem replace_answers (stands : Stands p F own w (temps ++ [d] ++ [e]) ip r) (result : Datum) :
    Answers p (Yields p F own temps ip) (.ok result w)
      ((do let _ ← Reference.pop; let _ ← Reference.pop; Reference.push result : Reference.Act Unit)
        r) := by
  obtain ⟨s, hpop, hs⟩ := stands.pop
  obtain ⟨t, hpop', ht⟩ := hs.pop
  rw [bind_of_ok hpop, bind_of_ok hpop']
  exact push_answers ht result

/-- The operations on two numbers. -/
theorem onNumbers_answers (operation : Float → Float → Datum)
    (stands : Stands p F own w (temps ++ [d] ++ [e]) ip r) :
    Answers p (Yields p F own temps ip) (onNumbers operation d e w)
      (Reference.binary operation r) := by
  rw [Reference.binary, bind_of_ok stands.second, bind_of_ok stands.top]
  cases d with
  | number x =>
      cases e with
      | number y => exact replace_answers stands _
      | nil | bool | text | callable => exact raise_answers stands.toAgrees _
  | nil | bool | text | callable => exact raise_answers stands.toAgrees _

/-- Sums. -/
theorem add_answers (stands : Stands p F own w (temps ++ [d] ++ [e]) ip r) :
    Answers p (Yields p F own temps ip) (add d e w) (Reference.add r) := by
  rw [Reference.add, bind_of_ok stands.second, bind_of_ok stands.top]
  cases d with
  | number x =>
      cases e with
      | number y => exact replace_answers stands _
      | nil | bool | text | callable => exact raise_answers stands.toAgrees _
  | text a =>
      cases e with
      | text b => exact replace_answers stands _
      | nil | bool | number | callable => exact raise_answers stands.toAgrees _
  | nil | bool | callable => exact raise_answers stands.toAgrees _

/-- Equality. -/
theorem equal_answers (stands : Stands p F own w (temps ++ [d] ++ [e]) ip r) :
    Answers p (Yields p F own temps ip) (.ok (.bool (d.same e)) w)
      (Reference.execute .equal 0 r) := by
  obtain ⟨s, hpop, hs⟩ := stands.pop
  obtain ⟨t, hpop', ht⟩ := hs.pop
  simp only [Reference.execute]
  rw [bind_of_ok hpop, bind_of_ok hpop']
  exact push_answers ht _

/-- An operator whose result is the opposite of that of another one. -/
theorem negated_follows {op : OpCode} (operator : BinaryOperator)
    (stands : Stands p F own w (temps ++ [d] ++ [e]) ip r)
    (reads : F.Reads ip (op.plain ++ OpCode.not.plain)) (bare : op.width = 0) (ne : op ≠ .giveBack)
    (answers : ∀ s ip, Stands p F own w (temps ++ [d] ++ [e]) ip s →
      Answers p (Yields p F own temps ip) (binary operator d e w) (Reference.execute op 0 s)) :
    Follows p n (Yields p F own temps (ip + 2))
      ((do let result ← binary operator d e; unary .not result : Act Datum) w) r := by
  refine Follows.bind (stands.plain_follows reads.left bare ne fun s hs => answers s _ hs) ?_
  intro result w' s hs
  exact Stands.plain_follows hs reads.right rfl nofun fun t ht => unary_answers .not ht

/-- The operators between two operands. -/
theorem binary_follows (op : BinaryOperator) (stands : Stands p F own w (temps ++ [d] ++ [e]) ip r)
    (reads : F.Reads ip (op.code.flatMap OpCode.plain)) :
    Follows p n (Yields p F own temps (ip + (op.code.flatMap OpCode.plain).length))
      (binary op d e w) r := by
  cases op with
  | equal => exact stands.plain_follows reads rfl nofun fun s hs => equal_answers hs
  | greater => exact stands.plain_follows reads rfl nofun fun s hs => onNumbers_answers _ hs
  | less => exact stands.plain_follows reads rfl nofun fun s hs => onNumbers_answers _ hs
  | add => exact stands.plain_follows reads rfl nofun fun s hs => add_answers hs
  | subtract => exact stands.plain_follows reads rfl nofun fun s hs => onNumbers_answers _ hs
  | multiply => exact stands.plain_follows reads rfl nofun fun s hs => onNumbers_answers _ hs
  | divide => exact stands.plain_follows reads rfl nofun fun s hs => onNumbers_answers _ hs
  | notEqual =>
      exact negated_follows .equal stands reads rfl nofun fun s ip hs => equal_answers hs
  | greaterEqual =>
      rw [show binary .greaterEqual d e = (do let result ← binary .less d e; unary .not result) by
        cases d <;> cases e <;> rfl]
      exact negated_follows .less stands reads rfl nofun fun s ip hs => onNumbers_answers _ hs
  | lessEqual =>
      rw [show binary .lessEqual d e = (do let result ← binary .greater d e; unary .not result) by
        cases d <;> cases e <;> rfl]
      exact negated_follows .greater stands reads rfl nofun fun s ip hs => onNumbers_answers _ hs

/-! ### Variables -/

/-- A captured variable is a local of a function around. -/
theorem exists_of_leads {captures : List Capture} {outer : List Layer}
    (leads : Leads name captures outer i) : ∃ L ∈ outer, name ∈ L.names := by
  induction leads with
  | @here _ L _ _ _ _ _ found =>
      refine ⟨L, List.mem_cons_self .., Classical.byContradiction fun hnot => ?_⟩
      rw [slot?_eq_none_iff.mpr hnot] at found
      cases found
  | through _ _ _ _ ih =>
      obtain ⟨L, hL, hname⟩ := ih
      exact ⟨L, List.mem_cons_of_mem _ hL, hname⟩

/-- In a program whose functions keep to themselves, a name refers to a local of the function at
hand or to a global. -/
theorem refers_cases {K : Context} {around : List String} {ref : Compiler.Reference}
    (knows : K.Knows own around) (plain : Plain own around name) (refers : Refers K name ref) :
    (∃ operand, ref = .slot operand ∧ slot? name K.layer.locals = some operand.toNat) ∨
      ∃ operand, ref = .global operand ∧ name ∉ own ∧
        K.constants[operand.toNat]? = some (.text name) := by
  have hown : slot? name K.layer.locals = none → name ∉ own := fun missing hmem => by
    rw [slot?_eq_none_iff, ← Layer.names, knows.own] at missing
    exact missing (List.mem_append_left _ hmem)
  cases refers with
  | slot found => exact .inl ⟨_, rfl, found⟩
  | global missing found =>
      exact .inr ⟨_, rfl, hown (missing _ (List.mem_cons_self ..)), found⟩
  | upvalue missing leads =>
      obtain ⟨L, hL, hname⟩ := exists_of_leads leads
      have haround : name ∈ around := (knows.around L hL name hname).resolve_left plain.1
      exact absurd haround (plain.2.resolve_left (hown missing))

/-- The location of a slot of the call. -/
theorem Stands.location (stands : Stands p F own w temps ip r)
    (found : (slots F.callee w.locals)[i]? = some d) :
    ∃ ℓ : Nat, r.stack[F.below.length + i]? = some ℓ ∧
      Reference.location (F.below.length + i) r = .ok ℓ r ∧ r.store[ℓ]? = some d := by
  obtain ⟨ℓ, hℓ, hd⟩ := stands.lays.location (i := F.below.length + i) (d := d) (by
    rw [List.append_assoc, List.getElem?_append_right (Nat.le_add_right _ _),
      Nat.add_sub_cancel_left,
      List.getElem?_append_left (List.getElem?_eq_some_iff.mp found).1, found])
  refine ⟨ℓ, hℓ, ?_, hd⟩
  rw [Reference.location, bind_of_ok (get_apply r), hℓ]
  rfl

/-- Reading a local. -/
theorem getLocal_answers (stands : Stands p F own w temps ip r)
    (found : (slots F.callee w.locals)[i]? = some d) :
    Answers p (Yields p F own temps ip) (.ok d w) (Reference.execute .getLocal i r) := by
  obtain ⟨ℓ, -, hlocation, hd⟩ := stands.location found
  have hread : Reference.read ℓ r = .ok d r := by
    rw [Reference.read, bind_of_ok (get_apply r), hd]
    rfl
  simp only [Reference.execute]
  rw [bind_of_ok (Reference.activation_of stands.calls), bind_of_ok hlocation, bind_of_ok hread]
  exact push_answers stands d

/-- Reading a global. -/
theorem getGlobal_answers (stands : Stands p F own w temps ip r)
    (constant : F.closure.constants[i]? = some (.text name)) (missing : name ∉ own) :
    Answers p (Yields p F own temps ip) (read name w) (Reference.execute .getGlobal i r) := by
  have hlookup : w.locals.lookup name = none := by
    rw [List.lookup_eq_none_iff]
    rintro ⟨first, d⟩ hmem
    rw [← stands.names] at missing
    refine bne_iff_ne.mpr ?_
    rintro rfl
    exact missing (List.mem_map_of_mem hmem)
  simp only [Reference.execute]
  rw [bind_of_ok (stands.nameConstant constant), read, bind_of_ok (get_apply w), hlookup]
  dsimp only
  cases hd : w.globals name with
  | some d =>
      have hread : Reference.readGlobal name r = .ok d r := by
        rw [Reference.readGlobal, bind_of_ok (get_apply r), stands.globals, hd]
        rfl
      rw [bind_of_ok hread]
      exact push_answers stands d
  | none =>
      have hread : Reference.readGlobal name r = Reference.raise (.undefinedVariable name) r := by
        rw [Reference.readGlobal, bind_of_ok (get_apply r), stands.globals, hd]
      simp only [bind, EStateM.bind, hread]
      exact raise_bind_answers stands.toAgrees _

/-- Reading a variable. -/
theorem read_answers {K : Context} {around : List String} {ref : Compiler.Reference}
    (hosts : F.Hosts K own around) (plain : Plain own around name)
    (refers : Refers K name ref) (stands : Stands p F own w temps ip r) :
    Answers p (Yields p F own temps ip) (read name w)
      (Reference.execute ref.read.1 ref.read.2.toNat r) := by
  rcases refers_cases hosts.toKnows plain refers with
    ⟨operand, rfl, found⟩ | ⟨operand, rfl, missing, found⟩
  · obtain ⟨d, hd, hslot⟩ := lookup_of_slot F.callee
      (hosts.own.trans (congrArg (· ++ [""]) stands.names.symm)) plain.1 found
    rw [read, bind_of_ok (get_apply w), hd]
    exact getLocal_answers stands hslot
  · exact getGlobal_answers stands (hosts.constants ▸ found) missing

/-- The instructions that read and assign variables are like any other with an operand. -/
theorem reference_form (ref : Compiler.Reference) :
    (OpCode.Form ref.read.1 ref.read.2.toNat (ref.read.1.short ref.read.2) ∧
      ref.read.1 ≠ .giveBack ∧ ref.read.1.width = 1) ∧
    (OpCode.Form ref.write.1 ref.write.2.toNat (ref.write.1.short ref.write.2) ∧
      ref.write.1 ≠ .giveBack ∧ ref.write.1.width = 1) := by
  cases ref <;> exact ⟨⟨.short rfl nofun, nofun, rfl⟩, .short rfl nofun, nofun, rfl⟩

/-- Reading a variable is followed. -/
theorem read_follows {K : Context} {around : List String} {ref : Compiler.Reference}
    (hosts : F.Hosts K own around) (plain : Plain own around name) (refers : Refers K name ref)
    (stands : Stands p F own w temps ip r)
    (reads : F.Reads ip (ref.read.1.short ref.read.2)) :
    Follows p n (Yields p F own temps (ip + 2)) (read name w) r := by
  obtain ⟨⟨hform, hne, hwidth⟩, -⟩ := reference_form ref
  refine stands.follows reads hform hne fun s hs => ?_
  rw [hwidth] at hs
  exact read_answers hosts plain refers hs

/-- Assigning a local. -/
theorem setLocal_answers (stands : Stands p F own w (temps ++ [d]) ip r)
    (found : (slots F.callee w.locals)[i]? = some e) {changed : List (String × Datum)}
    (names : changed.map Prod.fst = w.locals.map Prod.fst)
    (slots : slots F.callee changed = (slots F.callee w.locals).set i d) :
    Answers p (fun (_ : Unit) => Yields p F own temps ip d) (.ok () { w with locals := changed })
      (Reference.execute .setLocal i r) := by
  obtain ⟨ℓ, hℓ, hlocation, -⟩ := stands.location found
  simp only [Reference.execute]
  rw [bind_of_ok (Reference.activation_of stands.calls), bind_of_ok stands.top,
    bind_of_ok hlocation,
    Reference.write, modify_apply]
  refine .ok { stands.withLocals changed with
    kept := stands.kept, calls := stands.calls, names := names.trans stands.names, lays := ?_ }
  have hlays := stands.lays.set hℓ d
  rw [List.append_assoc, List.set_append_right _ _ (Nat.le_add_right _ _), Nat.add_sub_cancel_left,
    List.set_append_left _ _ (List.getElem?_eq_some_iff.mp found).1,
      ← slots, ← List.append_assoc] at hlays
  exact hlays

/-- A machine and a world with a new datum in the same global. -/
theorem Agrees.setGlobal (agrees : Agrees p w r) (name : String) (d : Datum) :
    Agrees p { w with globals := fun other => if other = name then some d else w.globals other }
      { r with globals := fun other => if other = name then some d else r.globals other } :=
  { agrees with globals := by simp only [agrees.globals] }

/-- Setting a global. -/
theorem setGlobal_stands (stands : Stands p F own w temps ip r) (name : String) (d : Datum) :
    ∃ w' s, Eval.setGlobal name d w = .ok () w' ∧ Reference.setGlobal name d r = .ok () s ∧
      Stands p F own w' temps ip s :=
  ⟨_, _, rfl, rfl, { stands.setGlobal name d with
    kept := stands.kept, calls := stands.calls, lays := stands.lays, names := stands.names }⟩

/-- Assigning a global. -/
theorem setGlobal_answers (stands : Stands p F own w (temps ++ [d]) ip r)
    (constant : F.closure.constants[i]? = some (.text name)) (missing : name ∉ own) :
    Answers p (fun (_ : Unit) => Yields p F own temps ip d) (assign name d w)
      (Reference.execute .setGlobal i r) := by
  rw [← stands.names] at missing
  simp only [Reference.execute]
  rw [bind_of_ok (stands.nameConstant constant), assign, bind_of_ok (get_apply w),
    reassign?_eq_none missing, Reference.assignGlobal, bind_of_ok (get_apply r), stands.globals]
  dsimp only
  split
  · obtain ⟨w', s, hset, hset', hs⟩ := setGlobal_stands stands name d
    rw [hset, bind_of_ok stands.top, hset']
    exact .ok hs
  · exact raise_answers stands.toAgrees _

/-- Assigning a variable. -/
theorem assign_answers {K : Context} {around : List String} {ref : Compiler.Reference}
    (hosts : F.Hosts K own around) (plain : Plain own around name)
    (refers : Refers K name ref) (stands : Stands p F own w (temps ++ [d]) ip r) :
    Answers p (fun (_ : Unit) => Yields p F own temps ip d) (assign name d w)
      (Reference.execute ref.write.1 ref.write.2.toNat r) := by
  rcases refers_cases hosts.toKnows plain refers with
    ⟨operand, rfl, found⟩ | ⟨operand, rfl, missing, found⟩
  · have hnames := hosts.own.trans (congrArg (· ++ [""]) stands.names.symm)
    obtain ⟨e, -, hslot⟩ := lookup_of_slot F.callee hnames plain.1 found
    obtain ⟨changed, hchanged, hsame, hslots⟩ :=
      reassign?_of_slot F.callee hnames plain.1 found d
    rw [assign, bind_of_ok (get_apply w), hchanged]
    exact setLocal_answers stands hslot hsame hslots
  · exact setGlobal_answers stands (hosts.constants ▸ found) missing

/-- Assigning a variable is followed. The value stays on the stack. -/
theorem assign_follows {K : Context} {around : List String} {ref : Compiler.Reference}
    (hosts : F.Hosts K own around) (plain : Plain own around name) (refers : Refers K name ref)
    (stands : Stands p F own w (temps ++ [d]) ip r)
    (reads : F.Reads ip (ref.write.1.short ref.write.2)) :
    Follows p n (fun (_ : Unit) => Yields p F own temps (ip + 2) d) (assign name d w) r := by
  obtain ⟨-, hform, hne, hwidth⟩ := reference_form ref
  refine stands.follows reads hform hne fun s hs => ?_
  rw [hwidth] at hs
  exact assign_answers hosts plain refers hs

/-- A datum on the stack becomes a global. -/
theorem defineGlobal_answers (stands : Yields p F own [] ip d w r)
    (constant : F.closure.constants[i]? = some (.text name)) :
    Answers p (fun (_ : Unit) w s => Stands p F own w [] ip s) (Eval.setGlobal name d w)
      (Reference.execute .defineGlobal i r) := by
  obtain ⟨w', s, hset, hset', hs⟩ := setGlobal_stands stands name d
  obtain ⟨t, hpop, ht⟩ := hs.pop
  simp only [Reference.execute]
  rw [bind_of_ok (stands.nameConstant constant), bind_of_ok stands.top,
    bind_of_ok hset', bind_of_ok hpop, hset]
  exact .ok ht

/-! ### Printing -/

/-- The text of a datum. -/
theorem display_of_agrees (agrees : Agrees p w r) (shown : r.display d = some text) :
    w.display d = text := by
  cases d with
  | nil | bool | number | text => exact Option.some.inj shown
  | callable id =>
      have hrel := agrees.callables id
      simp only [Reference.display] at shown
      simp only [World.display]
      generalize w.callables[id]? = o at hrel
      generalize r.callables[id]? = o' at hrel shown
      cases hrel with
      | none => cases shown
      | some hembodies =>
          cases hembodies with
          | native => exact Option.some.inj shown
          | @function f k hrealizes =>
              obtain ⟨name, parameters, body⟩ := f
              obtain rfl := Option.some.inj shown
              rw [Reference.displayTemplate, hrealizes.name]
              cases name <;> rfl

/-- Printing a datum. -/
theorem print_answers (stands : Yields p F own [] ip d w r) :
    Answers p (fun (_ : Unit) w s => Stands p F own w [] ip s) (Eval.print d w)
      (Reference.execute .print 0 r) := by
  obtain ⟨s, hpop, hs⟩ := stands.pop
  simp only [Reference.execute]
  rw [Reference.print, bind_of_ok hpop, bind_of_ok (get_apply s)]
  refine answers_of_demand fun text shown => ?_
  obtain rfl := display_of_agrees hs.toAgrees shown
  exact .ok { hs with printout := by simp [hs.printout] }

/-! ### Steps of the machine alone -/

/-- Moving to another place in the code. -/
theorem Stands.setIp (stands : Stands p F own w temps ip r) (target : Nat) :
    ∃ s, Reference.setIp target r = .ok () s ∧ Stands p F own w temps target s := by
  rw [Reference.setIp, modify_apply, stands.calls]
  exact ⟨_, rfl, { stands with calls := rfl }⟩

/-- An instruction that answers and does not end a call is a step. -/
theorem Stands.step_of_execute {op : OpCode} {operand : Nat}
    {bs : List UInt8} {good : Reference → Prop}
    (stands : Stands p F own w temps ip r) (reads : F.Reads ip bs)
    (form : OpCode.Form op operand bs) (ne : op ≠ .giveBack)
    (execute : ∀ s, Stands p F own w temps (ip + 1 + op.width) s →
      ∃ t, Reference.execute op operand s = .ok () t ∧ good t) :
    ∃ t, Reference.step r = .ok .running t ∧ good t := by
  obtain ⟨s, hstep, hs⟩ := stands.step reads form ne
  obtain ⟨t, hexecute, ht⟩ := execute s hs
  exact ⟨t, by rw [hstep, bind_of_ok hexecute]; rfl, ht⟩

/-- A datum is dropped, be it a variable whose scope ends. -/
theorem Stands.drop_step {op : OpCode} (drops : op = .pop ∨ op = .closeUpvalue)
    (stands : Stands p F own w (temps ++ [d]) ip r) (reads : F.Reads ip op.plain) :
    ∃ s, Reference.step r = .ok .running s ∧ Stands p F own w temps (ip + 1) s := by
  rcases drops with rfl | rfl
  all_goals
    refine stands.step_of_execute reads (.plain rfl nofun) nofun fun s hs => ?_
    obtain ⟨t, hpop, ht⟩ := hs.pop
    refine ⟨t, ?_, ht⟩
    simp only [Reference.execute]
    rw [bind_of_ok hpop]
    rfl

/-- A value is dropped. -/
theorem Stands.pop_step (stands : Stands p F own w (temps ++ [d]) ip r)
    (reads : F.Reads ip OpCode.pop.plain) :
    ∃ s, Reference.step r = .ok .running s ∧ Stands p F own w temps (ip + 1) s :=
  stands.drop_step (.inl rfl) reads

/-- A jump ahead. -/
theorem Stands.jump_step (stands : Stands p F own w temps ip r) {distance : Nat}
    (reads : F.Reads ip (OpCode.jump.long distance)) (short : distance ≤ Compiler.maxJump) :
    ∃ s, Reference.step r = .ok .running s ∧ Stands p F own w temps (ip + 3 + distance) s := by
  refine stands.step_of_execute reads (.long rfl nofun short) nofun fun s hs => ?_
  obtain ⟨t, hset, ht⟩ := hs.setIp (ip + 3 + distance)
  refine ⟨t, ?_, ht⟩
  simp only [Reference.execute, Reference.jump]
  rw [bind_of_ok (Reference.activation_of hs.calls)]
  exact hset

/-- A jump ahead over what follows, if the datum on top is false. -/
theorem Stands.jumpIfFalse_step (stands : Stands p F own w (temps ++ [d]) ip r) {distance : Nat}
    (reads : F.Reads ip (OpCode.jumpIfFalse.long distance)) (short : distance ≤ Compiler.maxJump) :
    ∃ s, Reference.step r = .ok .running s ∧
      Stands p F own w (temps ++ [d]) (if d.isFalsey then ip + 3 + distance else ip + 3) s := by
  refine stands.step_of_execute reads (.long rfl nofun short) nofun fun s hs => ?_
  simp only [Reference.execute]
  rw [bind_of_ok hs.top]
  split
  · obtain ⟨t, hset, ht⟩ := hs.setIp (ip + 3 + distance)
    refine ⟨t, ?_, ht⟩
    rw [Reference.jump, bind_of_ok (Reference.activation_of hs.calls)]
    exact hset
  · exact ⟨s, rfl, hs⟩

/-- A test that drops its datum if it succeeds. -/
theorem Stands.branch (stands : Stands p F own w (temps ++ [d]) ip r) {distance : Nat}
    {bs : List UInt8}
    (reads : F.Reads ip (OpCode.jumpIfFalse.long distance ++ (OpCode.pop.plain ++ bs)))
    (short : distance ≤ Compiler.maxJump) :
    ∃ s, r.Comes s ∧ if d.isFalsey then Stands p F own w (temps ++ [d]) (ip + 3 + distance) s
      else Stands p F own w temps (ip + 4) s := by
  obtain ⟨s, hfirst, hs⟩ := stands.jumpIfFalse_step reads.left short
  split at hs
  · rename_i hfalse
    exact ⟨s, .single hfirst, by rwa [if_pos hfalse]⟩
  · rename_i htrue
    obtain ⟨t, hsecond, ht⟩ := hs.pop_step reads.right.left
    exact ⟨t, (Reference.Comes.single hfirst).trans (.single hsecond), by rwa [if_neg htrue]⟩

/-- A jump back. -/
theorem Stands.loop_step {distance : Nat} (stands : Stands p F own w temps ip r) (target : Nat)
    (reads : F.Reads ip (OpCode.loop.long distance)) (short : distance ≤ Compiler.maxJump)
    (back : target + distance = ip + 3) :
    ∃ s, Reference.step r = .ok .running s ∧ Stands p F own w temps target s := by
  refine stands.step_of_execute reads (.long rfl nofun short) nofun fun s hs => ?_
  obtain ⟨t, hset, ht⟩ := hs.setIp target
  refine ⟨t, ?_, ht⟩
  simp only [Reference.execute, Reference.jumpBack]
  rw [bind_of_ok (Reference.activation_of hs.calls)]
  have hip : ip + 1 + OpCode.loop.width = target + distance := back.symm
  rw [if_pos (by simp only; omega)]
  dsimp only
  rwa [hip, Nat.add_sub_cancel]

end Lox.Eval
