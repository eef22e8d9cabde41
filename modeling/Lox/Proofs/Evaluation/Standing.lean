import Lox.Proofs.Code.Binding
import Lox.Proofs.Evaluation.Evaluator
import Lox.Proofs.Reference.Footing
import Lox.Proofs.Reference.Stack
import Lox.Proofs.Syntax.Mentions

/-!
# Where the machine stands in an evaluation

An evaluation is followed by the reference machine. While the evaluator is in the middle of a
function, the machine stands somewhere in the code of this function: the slots of the innermost call
hold the function itself, its locals and, on top of them, the values of unfinished expressions.
Everything else that the evaluator knows, the machine knows too: the globals, what can be called,
and what has been printed.

Functions are paired by their numbers. The code of a function is code of its body, for some
knowledge of the functions around it.

## Main definitions

* `Context.Knows` — the names that the compiler knows at a place.
* `Eval.Realizes`, `Eval.Agrees` — functions and their code; a world and a machine.
* `Eval.Site`, `Eval.Stands` — an active call, and the machine in the middle of it.
* `Eval.Returned` — the machine behind a call.

## Main results

* `lookup_of_slot`, `reassign?_of_slot` — the slot of a local is where the compiler has put it.
-/

namespace Lox

/-! ### Names -/

/-- What is asked of the variables of a program whose functions keep to themselves: a variable that
is mentioned is a local of the function itself, or no function around has a local of its name. The
empty name stands for functions in their own slots, so no variable has it. -/
def Plain (own around : List String) (name : String) : Prop :=
  name ≠ "" ∧ (name ∈ own ∨ name ∉ around)

/-- A name has no slot if it is that of no local. -/
theorem slot?_eq_none_iff {name : String} {vs : List Variable} :
    slot? name vs = none ↔ name ∉ vs.map Variable.name := by
  induction vs with
  | nil => simp [slot?]
  | cons v older ih =>
      rw [slot?, List.map_cons, List.mem_cons, not_or, ← ih]
      by_cases heq : v.name = name
      · simp [heq]
      · simp [heq, Ne.symm heq]

/-- The names in the scope of further locals. -/
theorem Context.names_push (K : Context) (added : List Variable) :
    (K.push added).layer.names = added.map Variable.name ++ K.layer.names := by
  simp [Context.push, Layer.push, Layer.names]

/-- The names of the locals that the compiler knows at a place: those of the function at hand, and
some of those that belong to functions around it. -/
structure Context.Knows (K : Context) (own around : List String) : Prop where
  own : K.layer.names = own ++ [""]
  around : ∀ L ∈ K.outer, ∀ name ∈ L.names, name = "" ∨ name ∈ around

namespace Eval

/-! ### Slots -/

/-- What the slots of a call hold: the function itself, and its locals from the oldest one on. -/
def slots (callee : Nat) (locals : List (String × Datum)) : List Datum :=
  .callable callee :: (locals.map Prod.snd).reverse

variable {callee : Nat} {name : String} {d : Datum} {locals : List (String × Datum)}
  {vs : List Variable} {i : Nat}

theorem slots_cons : slots callee ((name, d) :: locals) = slots callee locals ++ [d] := by
  simp [slots]

theorem length_slots : (slots callee locals).length = locals.length + 1 := by simp [slots]

/-- The slots of a function that has been given arguments. -/
theorem slots_zip {names : List String} {ds : List Datum} (length : ds.length = names.length) :
    slots callee (names.zip ds).reverse = .callable callee :: ds := by
  rw [slots, List.map_reverse, List.reverse_reverse, List.map_snd_zip (Nat.le_of_eq length)]

/-- A slot that the compiler has for a name holds the newest local of this name. -/
theorem lookup_of_slot (callee : Nat) (names : vs.map Variable.name = locals.map Prod.fst ++ [""])
    (named : name ≠ "") (found : slot? name vs = some i) :
    ∃ d, locals.lookup name = some d ∧ (slots callee locals)[i]? = some d := by
  induction locals generalizing vs with
  | nil =>
      obtain ⟨v, rfl, hv⟩ : ∃ v, vs = [v] ∧ v.name = "" := by simpa using names
      rw [slot?, hv, if_neg (Ne.symm named)] at found
      cases found
  | cons l older ih =>
      obtain ⟨first, d⟩ := l
      obtain ⟨v, vs, rfl, hv, hvs⟩ := List.map_eq_cons_iff.mp names
      have hlength : vs.length = older.length + 1 := by simpa using congrArg List.length hvs
      rw [slot?, hv] at found
      rw [slots_cons, List.lookup_cons]
      by_cases heq : first = name
      · rw [if_pos heq] at found
        obtain rfl := Option.some.inj found
        exact ⟨d, by simp [heq], by simp [hlength, length_slots]⟩
      · rw [if_neg heq] at found
        obtain ⟨e, he, hslot⟩ := ih hvs found
        refine ⟨e, by rw [beq_false_of_ne (Ne.symm heq)]; exact he, ?_⟩
        rw [List.getElem?_append_left (List.getElem?_eq_some_iff.mp hslot).1, hslot]

/-- Assigning the newest local of a name changes its slot only. -/
theorem reassign?_of_slot (callee : Nat)
    (names : vs.map Variable.name = locals.map Prod.fst ++ [""])
    (named : name ≠ "") (found : slot? name vs = some i) (d : Datum) :
    ∃ changed, reassign? name d locals = some changed ∧
      changed.map Prod.fst = locals.map Prod.fst ∧
      slots callee changed = (slots callee locals).set i d := by
  induction locals generalizing vs with
  | nil =>
      obtain ⟨v, rfl, hv⟩ : ∃ v, vs = [v] ∧ v.name = "" := by simpa using names
      rw [slot?, hv, if_neg (Ne.symm named)] at found
      cases found
  | cons l older ih =>
      obtain ⟨first, e⟩ := l
      obtain ⟨v, vs, rfl, hv, hvs⟩ := List.map_eq_cons_iff.mp names
      have hlength : vs.length = older.length + 1 := by simpa using congrArg List.length hvs
      rw [slot?, hv] at found
      rw [reassign?, slots_cons]
      by_cases heq : first = name
      · rw [if_pos heq] at found
        obtain rfl := Option.some.inj found
        refine ⟨_, if_pos heq, by simp [heq], ?_⟩
        rw [slots_cons, hlength, List.set_append_right _ _ (Nat.le_of_eq length_slots),
          length_slots,
          Nat.sub_self]
        rfl
      · rw [if_neg heq] at found
        obtain ⟨changed, hchanged, hnames, hslots⟩ := ih hvs found
        obtain ⟨_, -, hd⟩ := lookup_of_slot callee hvs named found
        refine ⟨_, by rw [if_neg heq, hchanged]; rfl, by simp [hnames], ?_⟩
        rw [slots_cons, hslots, List.set_append_left _ _ (List.getElem?_eq_some_iff.mp hd).1]

/-- Assigning a name of no local changes no local. -/
theorem reassign?_eq_none (missing : name ∉ locals.map Prod.fst) :
    reassign? name d locals = none := by
  induction locals with
  | nil => rfl
  | cons l older ih =>
      rw [List.map_cons, List.mem_cons, not_or] at missing
      rw [reassign?, if_neg (Ne.symm missing.1), ih missing.2]
      rfl

/-! ### Worlds and machines -/

/-- The code of a closure is that of a function. -/
structure Realizes (f : Function) (k : Reference.Closure) : Prop where
  name : k.template.name = f.name
  arity : k.template.arity = f.parameters.length
  code : ∃ (K : Context) (around : List String) (bs : List UInt8) (inner : List Variable),
    K.Knows f.parameters.reverse around ∧ K.constants = k.constants ∧ K.inScope = f.isLocal ∧
    Encoding.Declarations K f.body bs inner ∧
    Stmt.MentionsAll Plain f.isLocal f.parameters.reverse around f.body ∧
    k.template.code = bs ++ OpCode.pushNil.plain ++ OpCode.giveBack.plain

/-- What can be called by a machine does what the evaluator knows of it. -/
inductive Embodies : Callable → Reference.Callable → Prop
  | function {f : Function} {k : Reference.Closure} : Realizes f k →
    Embodies (.function f) (.closure k)
  | native (n : Native) : Embodies (.native n) (.native n)

/-- A machine knows what the evaluator knows, and has printed the same since it had a given
printout. -/
structure Agrees (p : Printout) (w : World) (r : Reference) : Prop where
  callables : ∀ i : Nat, Option.Rel Embodies w.callables[i]? r.callables[i]?
  globals : r.globals = w.globals
  printout : r.printout = w.lines.foldl Printout.writeLine p
  clock : r.clock = w.clock
  hostCalls : r.hostCalls = w.hostCalls

/-- A machine and a world have as many things that can be called. -/
theorem Agrees.size {p : Printout} {w : World} {r : Reference} (agrees : Agrees p w r) :
    r.callables.size = w.callables.size := by
  have hiff : ∀ i, w.callables.size ≤ i ↔ r.callables.size ≤ i := fun i => by
    have hrel := agrees.callables i
    rw [← Array.getElem?_eq_none_iff, ← Array.getElem?_eq_none_iff]
    generalize w.callables[i]? = o at hrel ⊢
    generalize r.callables[i]? = o' at hrel ⊢
    cases hrel with
    | none => simp
    | some => simp
  exact Nat.le_antisymm ((hiff _).mp (Nat.le_refl _)) ((hiff _).mpr (Nat.le_refl _))

/-- A machine and a world with something more that can be called. -/
theorem Agrees.make {p : Printout} {w : World} {r : Reference}
    {c : Callable} {k : Reference.Callable} (agrees : Agrees p w r) (embodies : Embodies c k) :
    Agrees p { w with callables := w.callables.push c }
      { r with callables := r.callables.push k } := by
  refine { agrees with callables := fun i => ?_ }
  rw [Array.getElem?_push, Array.getElem?_push, agrees.size]
  split
  · exact .some embodies
  · exact agrees.callables i

/-- Closures stay what they are, but for what they capture. -/
def Keeps (before after : Array Reference.Callable) : Prop :=
  ∀ (id : Nat) k, before[id]? = some (.closure k) →
    ∃ captured, after[id]? = some (.closure { k with captured })

theorem Keeps.refl (before : Array Reference.Callable) : Keeps before before :=
  fun _ k hk => ⟨k.captured, hk⟩

theorem Keeps.push (before : Array Reference.Callable) (c : Reference.Callable) :
    Keeps before (before.push c) := fun id k hk => by
  have hlt := (Array.getElem?_eq_some_iff.mp hk).1
  exact ⟨k.captured, by rw [Array.getElem?_push, if_neg (Nat.ne_of_lt hlt), hk]⟩

theorem Keeps.trans {before middle after : Array Reference.Callable} (first : Keeps before middle)
    (second : Keeps middle after) : Keeps before after := by
  intro id k hk
  obtain ⟨captured, hmiddle⟩ := first id k hk
  obtain ⟨captured', hafter⟩ := second id _ hmiddle
  exact ⟨captured', hafter⟩

/-! ### Active calls -/

/-- An active call, with what does not change while it is active. -/
structure Site where
  /-- What could be called when the call began. -/
  made : Array Reference.Callable
  /-- The closure that was called. -/
  callee : Nat
  /-- Its function and its constants. -/
  closure : Reference.Closure
  /-- The calls around it. -/
  outer : List Reference.Activation
  /-- What the stack holds below it. -/
  below : List Datum
  known : made[callee]? = some (.closure closure)

/-- Bytes stand at an offset of the code. -/
abbrev Site.Reads (F : Site) (ip : Nat) (bs : List UInt8) : Prop :=
  Chunk.Reads { code := F.closure.template.code.toArray } ip bs

/-- The bytes behind the first one. -/
theorem Site.Reads.tail {F : Site} {ip : Nat} {b : UInt8} {bs : List UInt8}
    (reads : F.Reads ip (b :: bs)) : F.Reads (ip + 1) bs :=
  Chunk.Reads.right (show F.Reads ip ([b] ++ bs) from reads)

/-- What the compiler knows at a place in the code of an active call. -/
structure Site.Hosts (F : Site) (K : Context) (own around : List String) : Prop
    extends K.Knows own around where
  constants : K.constants = F.closure.constants
  deep : K.outer ≠ [] → F.outer ≠ []

namespace Site.Hosts

variable {F : Site} {K : Context} {own around : List String}

/-- In the scope of further locals. -/
theorem push (hosts : F.Hosts K own around) (added : List Variable) :
    F.Hosts (K.push added) (added.map Variable.name ++ own) around :=
  { hosts with own := by rw [Context.names_push, hosts.own, List.append_assoc] }

/-- In a block. -/
theorem inside (hosts : F.Hosts K own around) : F.Hosts K.inside own around := { hosts with }

end Site.Hosts

/-- The machine is in the middle of a call. The locals in scope have given names, and there are
values of unfinished expressions above them. -/
structure Stands (p : Printout) (F : Site) (own : List String) (w : World) (temps : List Datum)
    (ip : Nat) (r : Reference) : Prop extends Agrees p w r where
  kept : Keeps F.made r.callables
  calls : r.calls = { callee := F.callee, ip, base := F.below.length } :: F.outer
  lays : Reference.Lays r.store r.stack (F.below ++ slots F.callee w.locals ++ temps)
  names : w.locals.map Prod.fst = own

/-- The machine is behind a call. The result has taken the place of the callee. -/
structure Returned (p : Printout) (F : Site) (d : Datum) (w : World) (r : Reference) : Prop
    extends Agrees p w r where
  kept : Keeps F.made r.callables
  calls : r.calls = F.outer
  lays : Reference.Lays r.store r.stack (F.below ++ [d])

variable {p : Printout} {F : Site} {own : List String} {w : World} {temps : List Datum} {ip : Nat}
  {r : Reference}

/-- The closure that was called is there. -/
theorem Stands.closure (stands : Stands p F own w temps ip r) :
    ∃ k, r.closure? F.callee = some k ∧ k.template = F.closure.template ∧
      k.constants = F.closure.constants := by
  obtain ⟨captured, hk⟩ := stands.kept _ _ F.known
  refine ⟨{ F.closure with captured }, ?_, rfl, rfl⟩
  rw [Reference.closure?, hk]

/-- Which locals there are is a matter of the innermost call alone. -/
theorem Agrees.withLocals (agrees : Agrees p w r) (locals : List (String × Datum)) :
    Agrees p { w with locals } r := { agrees with }

/-- What the machine agrees with does not depend on its stack and its calls. -/
theorem Agrees.withStack (agrees : Agrees p w r) (store : Array Datum) (stack : Array Nat)
    (calls : List Reference.Activation) : Agrees p w { r with store, stack, calls } :=
  { agrees with }

end Eval

end Lox
