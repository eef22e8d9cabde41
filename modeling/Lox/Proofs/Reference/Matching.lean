import Lox.Proofs.Agreement
import Lox.Proofs.Reference.Footing

/-!
# A piece of a script beside the whole

Two reference machines may run the same instructions, one of them in a script of its own, and the
other one in the middle of a longer script. The bytes of both scripts differ in the operands that
refer to constants, and the offsets differ by what stands in front; all other functions are the
same. Numbers of callables and locations differ, since one machine may have made more of them than
the other, so they are *paired* one to one.

The slots of the two scripts are not paired: the scripts are not the same. No instruction looks at
them.

## Main definitions

* `Matching` — callables and locations of two machines that stand for each other.
* `Passage`, `Passage.Fits` — a piece of a script and its place in the whole.
* `Reference.Common`, `Reference.Beside` — what two machines have in common, and two machines in
  the middle of a passage.
* `Reference.Alongside` — actions of two machines.

## Main results

* `raise_alongside`, `push_alongside`, `pop_alongside`, `peek_views` — the primitive actions.
-/

namespace Lox

/-! ### Matchings -/

/-- Which callables and which locations of two machines stand for each other. -/
structure Matching where
  callable : Nat → Nat → Prop
  location : Nat → Nat → Prop

namespace Matching

/-- Nothing is paired with two things. -/
structure OneToOne (π : Matching) : Prop where
  callable_right : ∀ i j j', π.callable i j → π.callable i j' → j = j'
  callable_left : ∀ i i' j, π.callable i j → π.callable i' j → i = i'
  location_right : ∀ i j j', π.location i j → π.location i j' → j = j'
  location_left : ∀ i i' j, π.location i j → π.location i' j → i = i'

/-- One matching has all the pairs of another. -/
structure Le (π π' : Matching) : Prop where
  callable : ∀ i j, π.callable i j → π'.callable i j
  location : ∀ i j, π.location i j → π'.location i j

variable {π π' π'' : Matching}

theorem Le.refl (π : Matching) : π.Le π := ⟨fun _ _ => id, fun _ _ => id⟩

theorem Le.trans (first : π.Le π') (second : π'.Le π'') : π.Le π'' :=
  ⟨fun _ _ h => second.callable _ _ (first.callable _ _ h),
    fun _ _ h => second.location _ _ (first.location _ _ h)⟩

/-- One more pair of callables. -/
def addCallable (π : Matching) (i j : Nat) : Matching :=
  { π with callable := fun x y => π.callable x y ∨ (x = i ∧ y = j) }

/-- One more pair of locations. -/
def addLocation (π : Matching) (i j : Nat) : Matching :=
  { π with location := fun x y => π.location x y ∨ (x = i ∧ y = j) }

theorem le_addCallable (π : Matching) (i j : Nat) : π.Le (π.addCallable i j) :=
  ⟨fun _ _ => .inl, fun _ _ => id⟩

theorem le_addLocation (π : Matching) (i j : Nat) : π.Le (π.addLocation i j) :=
  ⟨fun _ _ => id, fun _ _ => .inl⟩

/-- A pair of new callables. -/
theorem OneToOne.addCallable {i j : Nat} (oneToOne : π.OneToOne) (left : ∀ y, ¬ π.callable i y)
    (right : ∀ x, ¬ π.callable x j) : (π.addCallable i j).OneToOne := by
  refine { oneToOne with callable_right := ?_, callable_left := ?_ }
  · rintro x y y' (h | ⟨rfl, rfl⟩) (h' | ⟨hx, rfl⟩)
    · exact oneToOne.callable_right _ _ _ h h'
    · exact absurd (hx ▸ h) (left _)
    · exact absurd h' (left _)
    · rfl
  · rintro x x' y (h | ⟨rfl, rfl⟩) (h' | ⟨rfl, hy⟩)
    · exact oneToOne.callable_left _ _ _ h h'
    · exact absurd (hy ▸ h) (right _)
    · exact absurd h' (right _)
    · rfl

/-- A pair of new locations. -/
theorem OneToOne.addLocation {i j : Nat} (oneToOne : π.OneToOne) (left : ∀ y, ¬ π.location i y)
    (right : ∀ x, ¬ π.location x j) : (π.addLocation i j).OneToOne := by
  refine { oneToOne with location_right := ?_, location_left := ?_ }
  · rintro x y y' (h | ⟨rfl, rfl⟩) (h' | ⟨hx, rfl⟩)
    · exact oneToOne.location_right _ _ _ h h'
    · exact absurd (hx ▸ h) (left _)
    · exact absurd h' (left _)
    · rfl
  · rintro x x' y (h | ⟨rfl, rfl⟩) (h' | ⟨rfl, hy⟩)
    · exact oneToOne.location_left _ _ _ h h'
    · exact absurd (hy ▸ h) (right _)
    · exact absurd h' (right _)
    · rfl

end Matching

/-! ### Data -/

/-- Data that are the same, up to the numbers of callables. -/
inductive Datum.Like (π : Matching) : Datum → Datum → Prop
  | nil : Like π .nil .nil
  | bool (b : Bool) : Like π (.bool b) (.bool b)
  | number (x : Float) : Like π (.number x) (.number x)
  | text (s : String) : Like π (.text s) (.text s)
  | callable {i j : Nat} : π.callable i j → Like π (.callable i) (.callable j)

namespace Datum.Like

variable {π π' : Matching} {d d' e e' : Datum}

theorem mono (like : d.Like π d') (le : π.Le π') : d.Like π' d' := by
  cases like with
  | nil => exact .nil
  | bool b => exact .bool b
  | number x => exact .number x
  | text s => exact .text s
  | callable h => exact .callable (le.callable _ _ h)

theorem isFalsey (like : d.Like π d') : d'.isFalsey = d.isFalsey := by
  cases like <;> rfl

/-- Whether two data are the same does not depend on the machine. -/
theorem same (first : d.Like π d') (second : e.Like π e') (oneToOne : π.OneToOne) :
    d'.same e' = d.same e := by
  cases first with
  | nil | bool | number | text => cases second <;> rfl
  | @callable i j h =>
      cases second with
      | nil | bool | number | text => rfl
      | @callable i' j' h' =>
          simp only [Datum.same, decide_eq_decide]
          constructor
          · rintro rfl
            exact oneToOne.callable_left _ _ _ h h'
          · rintro rfl
            exact oneToOne.callable_right _ _ _ h h'

end Datum.Like

namespace Reference

/-! ### Scripts -/

/-- Callables that are the same, up to lines and to the numbers of locations. -/
inductive Callable.Like (π : Matching) : Callable → Callable → Prop
  | closure {k k' : Closure} :
      Constant.Kin (.function k.template k.constants) (.function k'.template k'.constants) →
      List.Forall₂ π.location k.captured.toList k'.captured.toList →
        Like π (.closure k) (.closure k')
  | native (n : Native) : Like π (.native n) (.native n)

theorem Callable.Like.mono {π π' : Matching} {c c' : Callable} (like : c.Like π c') (le : π.Le π') :
    c.Like π' c' := by
  cases like with
  | closure h hcaptured => exact .closure h (hcaptured.imp le.location)
  | native n => exact .native n

end Reference

/-- A piece of a script on one machine, and its place in a longer script on another one. -/
structure Passage where
  /-- The script that starts with the piece. -/
  script : Nat
  part : Reference.Closure
  /-- The script that the piece is a part of. -/
  whole : Nat
  around : Reference.Closure
  /-- How many bytes stand in front of the piece there. -/
  front : Nat
  /-- The code of the piece. -/
  code : List UInt8
  /-- The instructions of the piece. -/
  outline : Outline

/-- The code of the piece is the beginning of one script, with nothing but the implicit return
behind it, and it stands somewhere in the other script. -/
structure Passage.Fits (F : Passage) : Prop where
  name : F.part.template.name = none
  captured : F.part.captured = #[]
  captured' : F.around.captured = #[]
  code : F.part.template.code = F.code ∨
    F.part.template.code = F.code ++ (OpCode.pushNil.plain ++ OpCode.giveBack.plain)
  code' : ∃ (shift : Nat) (before code' after : List UInt8),
    F.around.template.code = before ++ (code' ++ after) ∧ before.length = F.front ∧
      Laid shift F.part.constants F.outline F.code code' ∧
      ∀ (i : Nat) c c', F.part.constants[i]? = some c →
        F.around.constants[shift + i]? = some c' → c.Kin c'

namespace Reference

/-! ### Two machines -/

/-- What two machines have in common, whatever they execute. -/
structure Common (π : Matching) (r r' : Reference) : Prop where
  oneToOne : π.OneToOne
  callables : ∀ i j, π.callable i j →
    ∃ c c', r.callables[i]? = some c ∧ r'.callables[j]? = some c' ∧ c.Like π c'
  locations : ∀ i j, π.location i j →
    ∃ d d', r.store[i]? = some d ∧ r'.store[j]? = some d' ∧ d.Like π d'
  globals : ∀ name, Option.Rel (Datum.Like π) (r.globals name) (r'.globals name)
  printout : r'.printout = r.printout
  stackMax : r'.stackMax = r.stackMax
  clock : r'.clock = r.clock
  hostCalls : r'.hostCalls = r.hostCalls

/-- The active calls of two machines, the innermost first. The outermost ones are the scripts. -/
inductive Calls (F : Passage) (π : Matching) : List Activation → List Activation → Prop
  | script {a a' : Activation} : a.callee = F.script → a'.callee = F.whole → a.base = 0 →
      a'.base = 0 → a'.ip = F.front + a.ip → a.ip ≤ F.code.length → Calls F π [a] [a']
  | inner {a a' : Activation} {outer outer' : List Activation} : π.callable a.callee a'.callee →
      a'.base = a.base → 1 ≤ a.base → a'.ip = a.ip → Calls F π outer outer' →
        Calls F π (a :: outer) (a' :: outer')

/-- Two machines in the middle of a passage. -/
structure Beside (F : Passage) (π : Matching) (r r' : Reference) : Prop extends Common π r r' where
  fits : F.Fits
  script : r.closure? F.script = some F.part
  whole : r'.closure? F.whole = some F.around
  bottom : 0 < r.stack.size
  bottom' : 0 < r'.stack.size
  stack : List.Forall₂ π.location (r.stack.toList.drop 1) (r'.stack.toList.drop 1)
  calls : Calls F π r.calls r'.calls
  room : 0 < r.stackMax

section

variable {F : Passage} {π π' : Matching} {r r' s s' : Reference} {d d' : Datum} {i j ℓ ℓ' n : Nat}
  {a a' : Activation} {outer outer' : List Activation} {k k' : Closure}

theorem Common.mono (common : Common π r r') (le : π.Le π') (oneToOne : π'.OneToOne)
    (callables : ∀ i j, π'.callable i j → ¬ π.callable i j →
      ∃ c c', r.callables[i]? = some c ∧ r'.callables[j]? = some c' ∧ c.Like π' c')
    (locations : ∀ i j, π'.location i j → ¬ π.location i j →
      ∃ d d', r.store[i]? = some d ∧ r'.store[j]? = some d' ∧ d.Like π' d') :
    Common π' r r' := by
  refine { common with
    oneToOne, callables := fun i j h => ?_, locations := fun i j h => ?_, globals := ?_ }
  · by_cases hold : π.callable i j
    · obtain ⟨c, c', hc, hc', hlike⟩ := common.callables i j hold
      exact ⟨c, c', hc, hc', hlike.mono le⟩
    · exact callables i j h hold
  · by_cases hold : π.location i j
    · obtain ⟨d, d', hd, hd', hlike⟩ := common.locations i j hold
      exact ⟨d, d', hd, hd', hlike.mono le⟩
    · exact locations i j h hold
  · intro name
    have hrel := common.globals name
    generalize r.globals name = o at hrel ⊢
    generalize r'.globals name = o' at hrel ⊢
    cases hrel with
    | none => exact .none
    | some h => exact .some (h.mono le)

theorem Calls.mono {calls calls' : List Activation} (paired : Calls F π calls calls')
    (le : π.Le π') : Calls F π' calls calls' := by
  induction paired with
  | script h h' hb hb' hip hle => exact .script h h' hb hb' hip hle
  | inner h hb hpos hip _ ih => exact .inner (le.callable _ _ h) hb hpos hip ih

/-! ### The stack -/

namespace Beside

/-- Both stacks have the same size. -/
theorem size (beside : Beside F π r r') : r'.stack.size = r.stack.size := by
  have hlength := beside.stack.length_eq
  have hpos := beside.bottom
  have hpos' := beside.bottom'
  simp only [List.length_drop, Array.length_toList] at hlength
  omega

/-- The slots above the script are paired. -/
theorem slot (beside : Beside F π r r') (pos : 1 ≤ i) :
    Option.Rel π.location r.stack[i]? r'.stack[i]? := by
  have hrel := forall₂_getElem? beside.stack (i - 1)
  rwa [List.getElem?_drop, List.getElem?_drop, Nat.add_sub_cancel' pos, Array.getElem?_toList,
    Array.getElem?_toList] at hrel

/-- What the slots above the script hold. -/
theorem datum (beside : Beside F π r r') (pos : 1 ≤ i) (lt : i < r.stack.size) :
    ∃ d d', r.slot? i = some d ∧ r'.slot? i = some d' ∧ d.Like π d' := by
  have hrel := beside.slot pos
  rw [Array.getElem?_eq_getElem lt, Array.getElem?_eq_getElem (beside.size.symm ▸ lt)] at hrel
  cases hrel with
  | some h =>
      obtain ⟨d, d', hd, hd', hlike⟩ := beside.locations _ _ h
      refine ⟨d, d', ?_, ?_, hlike⟩
      · rw [slot?, Array.getElem?_eq_getElem lt]
        exact hd
      · rw [slot?, Array.getElem?_eq_getElem (beside.size.symm ▸ lt)]
        exact hd'

/-- Shortening both stacks. -/
theorem shrink (beside : Beside F π r r') (pos : 1 ≤ n) :
    Beside F π { r with stack := r.stack.shrink n } { r' with stack := r'.stack.shrink n } := by
  have hpos := beside.bottom
  have hpos' := beside.bottom'
  refine { beside with bottom := ?_, bottom' := ?_, stack := ?_ }
  · rw [Array.size_shrink]
    omega
  · rw [Array.size_shrink]
    omega
  · simp only [Array.toList_shrink, List.drop_take]
    exact List.forall₂_take _ beside.stack

/-- Popping both stacks. -/
theorem pop (beside : Beside F π r r') (deep : 2 ≤ r.stack.size) :
    Beside F π { r with stack := r.stack.pop } { r' with stack := r'.stack.pop } := by
  rw [Machine.pop_eq_shrink, Machine.pop_eq_shrink, beside.size]
  exact beside.shrink (by omega)

/-- The data above a slot. -/
theorem dataFrom (beside : Beside F π r r') (pos : 1 ≤ i) :
    List.Forall₂ (Datum.Like π) (r.dataFrom i) (r'.dataFrom i) := by
  have hdrop := List.forall₂_drop (i - 1) beside.stack
  rw [List.drop_drop, List.drop_drop, Nat.add_sub_cancel' pos] at hdrop
  unfold Reference.dataFrom
  rw [List.forall₂_map_left_iff, List.forall₂_map_right_iff]
  refine hdrop.imp fun ℓ ℓ' h => ?_
  obtain ⟨d, d', hd, hd', hlike⟩ := beside.locations _ _ h
  rwa [Array.getD_eq_getD_getElem?, Array.getD_eq_getD_getElem?, hd, hd']

end Beside

/-- No location has a pair that is not there yet. -/
theorem Common.fresh_location (common : Common π r r') :
    (∀ j, ¬ π.location r.store.size j) ∧ ∀ i, ¬ π.location i r'.store.size := by
  refine ⟨fun j h => ?_, fun i h => ?_⟩
  · obtain ⟨d, -, hd, -⟩ := common.locations _ _ h
    simp at hd
  · obtain ⟨-, d', -, hd', -⟩ := common.locations _ _ h
    simp at hd'

/-- No callable has a pair that is not there yet. -/
theorem Common.fresh_callable (common : Common π r r') :
    (∀ j, ¬ π.callable r.callables.size j) ∧ ∀ i, ¬ π.callable i r'.callables.size := by
  refine ⟨fun j h => ?_, fun i h => ?_⟩
  · obtain ⟨c, -, hc, -⟩ := common.callables _ _ h
    simp at hc
  · obtain ⟨-, c', -, hc', -⟩ := common.callables _ _ h
    simp at hc'

/-- An array that has grown by one. -/
theorem getElem?_push_of_eq_some {α : Type} {xs : Array α} {i : Nat} {x : α} (y : α)
    (found : xs[i]? = some x) : (xs.push y)[i]? = some x := by
  have hlt := (Array.getElem?_eq_some_iff.mp found).1
  rw [Array.getElem?_push, if_neg (by omega), found]

/-- Two machines with one more location each. -/
theorem Common.addLocation (common : Common π r r') (like : d.Like π d') :
    Common (π.addLocation r.store.size r'.store.size) { r with store := r.store.push d }
      { r' with store := r'.store.push d' } := by
  have hle := π.le_addLocation r.store.size r'.store.size
  have hgrown : Common π { r with store := r.store.push d } { r' with store := r'.store.push d' } :=
    { common with
      locations := fun i j h => by
        obtain ⟨e, e', he, he', hlike⟩ := common.locations i j h
        exact ⟨e, e', getElem?_push_of_eq_some d he, getElem?_push_of_eq_some d' he', hlike⟩ }
  refine hgrown.mono hle (common.oneToOne.addLocation common.fresh_location.1
    common.fresh_location.2) (fun i j h hnew => absurd h hnew) ?_
  rintro i j (h | ⟨rfl, rfl⟩) hnew
  · exact absurd h hnew
  · exact ⟨d, d', by simp, by simp, like.mono hle⟩

/-- Two machines with one more callable each. -/
theorem Common.addCallable (common : Common π r r') {c c' : Callable} (like : c.Like π c') :
    Common (π.addCallable r.callables.size r'.callables.size)
      { r with callables := r.callables.push c } { r' with callables := r'.callables.push c' } := by
  have hle := π.le_addCallable r.callables.size r'.callables.size
  have hgrown : Common π { r with callables := r.callables.push c }
      { r' with callables := r'.callables.push c' } :=
    { common with
      callables := fun i j h => by
        obtain ⟨e, e', he, he', hlike⟩ := common.callables i j h
        exact ⟨e, e', getElem?_push_of_eq_some c he, getElem?_push_of_eq_some c' he', hlike⟩ }
  refine hgrown.mono hle (common.oneToOne.addCallable common.fresh_callable.1
    common.fresh_callable.2) ?_ (fun i j h hnew => absurd h hnew)
  rintro i j (h | ⟨rfl, rfl⟩) hnew
  · exact absurd h hnew
  · exact ⟨c, c', by simp, by simp, like.mono hle⟩

/-- A closure is still there when there are more callables. -/
theorem closure?_push {id : Nat} (c : Callable) (found : r.closure? id = some k) :
    closure? { r with callables := r.callables.push c } id = some k := by
  unfold closure? at found ⊢
  split at found
  · rename_i c' hc
    simp only
    rw [getElem?_push_of_eq_some c hc]
    exact found
  · cases found

end

/-! ### Actions -/

section

variable {α β γ δ : Type} {F : Passage} {π : Matching} {r r' s s' : Reference} {d d' : Datum}
  {ℓ ℓ' n : Nat} {R : α → β → Prop}

/-- Both machines have raised the same runtime error. Their traces may differ in lines. -/
def Fails (e : Interruption) (r : Reference) (e' : Interruption) (r' : Reference) : Prop :=
  ∃ cause trace trace' π, e = .raised ⟨cause, trace⟩ ∧ e' = .raised ⟨cause, trace'⟩ ∧ Common π r r'

/-- A machine is stuck. Nothing is said of the other one. -/
def Stuck (e : Interruption) (_ : Reference) : Prop := ∃ f, e = .fault f

/-- The results of an action of each machine. -/
abbrev Alongside (S : α → Reference → β → Reference → Prop) :
    EStateM.Result Interruption Reference α → EStateM.Result Interruption Reference β → Prop :=
  Agree S Fails Stuck

/-- Actions that only look at the machines. -/
abbrev Views (r r' : Reference) (R : α → β → Prop) (x : Act α) (y : Act β) : Prop :=
  Alongside (fun a s b s' => s = r ∧ s' = r' ∧ R a b) (x r) (y r')

/-- The same answer of two machines in the middle of a passage, in a later matching. -/
def Goes (F : Passage) (π : Matching) (a : α) (s : Reference) (b : α) (s' : Reference) : Prop :=
  b = a ∧ ∃ π', π.Le π' ∧ Beside F π' s s'

/-- Actions that follow others that only look. -/
theorem Views.bind {S : γ → Reference → δ → Reference → Prop} {x : Act α} {y : Act β}
    {f : α → Act γ} {g : β → Act δ} (first : Views r r' R x y)
    (rest : ∀ a b, R a b → Alongside S (f a r) (g b r')) :
    Alongside S ((x >>= f) r) ((y >>= g) r') :=
  Agree.bind first fun a _ b _ ⟨hs, hs', h⟩ => hs ▸ hs' ▸ rest a b h

theorem views_pure {a : α} {b : β} (related : R a b) : Views r r' R (pure a) (pure b) :=
  .ok ⟨rfl, rfl, related⟩

/-- What is there on both machines. -/
theorem demand_views {o : Option α} {o' : Option β}
    (found : ∀ a b, o = some a → o' = some b → R a b) : Views r r' R (demand o) (demand o') := by
  cases o with
  | none => exact .first ⟨_, rfl⟩
  | some a =>
      cases o' with
      | none => exact .second ⟨_, rfl⟩
      | some b => exact views_pure (found a b rfl rfl)

/-- Raising the same runtime error. -/
theorem raise_alongside {S : α → Reference → β → Reference → Prop} (common : Common π r r')
    (cause : Cause) : Alongside S (raise cause r) (raise cause r') := by
  unfold raise
  rw [bind_of_ok (get_apply r), bind_of_ok (get_apply r')]
  refine (demand_views (R := fun _ _ => True) fun _ _ _ _ => trivial).bind fun trace trace' _ => ?_
  exact .fail ⟨cause, trace, trace', π, rfl, rfl, { common with }⟩

/-- Pushing a datum. Nothing else changes but the locations. -/
theorem push_steadily (beside : Beside F π r r') (like : d.Like π d') :
    Alongside (fun a s b s' => Goes F π a s b s' ∧ s.calls = r.calls ∧ s'.calls = r'.calls ∧
        s.callables = r.callables ∧ s'.callables = r'.callables) (push d r) (push d' r') := by
  have hsame : (r'.stackMax ≤ r'.stack.size) = (r.stackMax ≤ r.stack.size) := by
    rw [beside.size, beside.stackMax]
  unfold push
  simp only [hsame]
  split
  · exact raise_alongside beside.toCommon _
  · have hle := π.le_addLocation r.store.size r'.store.size
    have hpos := beside.bottom
    have hpos' := beside.bottom'
    refine .ok ⟨⟨rfl, _, hle, { beside.toCommon.addLocation like with
      fits := beside.fits, script := beside.script, whole := beside.whole
      bottom := by simp, bottom' := by simp, stack := ?_
      calls := beside.calls.mono hle, room := beside.room }⟩, rfl, rfl, rfl, rfl⟩
    simp only [Array.toList_push]
    rw [List.drop_append_of_le_length (Array.length_toList ▸ hpos),
      List.drop_append_of_le_length (Array.length_toList ▸ hpos')]
    exact List.rel_append (beside.stack.imp hle.location) (.cons (.inr ⟨rfl, rfl⟩) .nil)

/-- Pushing a datum. -/
theorem push_alongside (beside : Beside F π r r') (like : d.Like π d') :
    Alongside (Goes F π) (push d r) (push d' r') :=
  (push_steadily beside like).imp fun _ _ _ _ h => h.1

/-- Popping a datum that is above the script. -/
theorem pop_alongside (beside : Beside F π r r') (deep : 2 ≤ r.stack.size) :
    Alongside (fun d s d' s' => d.Like π d' ∧ Beside F π s s' ∧ s.stack.size = r.stack.size - 1)
      (pop r) (pop r') := by
  obtain ⟨d, d', hd, hd', hlike⟩ := beside.datum (i := r.stack.size - 1) (by omega) (by omega)
  unfold pop
  rw [bind_of_ok (get_apply r), bind_of_ok (get_apply r'), bind_of_ok (modify_apply _ _),
    bind_of_ok (modify_apply _ _), beside.size, hd, hd']
  exact .ok ⟨hlike, beside.pop deep, by simp⟩

/-- Looking at a datum that is above the script. -/
theorem peek_views (beside : Beside F π r r') {depth : Nat} (deep : depth + 2 ≤ r.stack.size) :
    Views r r' (Datum.Like π) (peek depth) (peek depth) := by
  obtain ⟨d, d', hd, hd', hlike⟩ :=
    beside.datum (i := r.stack.size - 1 - depth) (by omega) (by omega)
  unfold Views peek
  rw [bind_of_ok (get_apply r), bind_of_ok (get_apply r'), beside.size, if_pos (by omega),
    if_pos (by omega), hd, hd']
  exact views_pure hlike

/-- The location of a slot that is above the script. -/
theorem location_views (beside : Beside F π r r') {slot : Nat} (pos : 1 ≤ slot) :
    Views r r' π.location (location slot) (location slot) := by
  unfold Views location
  rw [bind_of_ok (get_apply r), bind_of_ok (get_apply r')]
  refine demand_views fun ℓ ℓ' h h' => ?_
  have hrel := beside.slot pos
  rw [h, h'] at hrel
  cases hrel with
  | some h => exact h

/-- Reading a location. -/
theorem read_views (beside : Beside F π r r') (paired : π.location ℓ ℓ') :
    Views r r' (Datum.Like π) (read ℓ) (read ℓ') := by
  obtain ⟨d, d', hd, hd', hlike⟩ := beside.locations _ _ paired
  unfold Views read
  rw [bind_of_ok (get_apply r), bind_of_ok (get_apply r'), hd, hd']
  exact views_pure hlike

/-- Assigning a location. -/
theorem write_alongside (beside : Beside F π r r') (paired : π.location ℓ ℓ') (like : d.Like π d') :
    Alongside (Goes F π) (write ℓ d r) (write ℓ' d' r') := by
  have hlt : ∀ {store : Array Datum} {i : Nat} {e : Datum}, store[i]? = some e → i < store.size :=
    fun h => (Array.getElem?_eq_some_iff.mp h).1
  refine .ok ⟨rfl, π, .refl π, { beside with locations := fun i j h => ?_ }⟩
  obtain ⟨e, e', he, he', hlike⟩ := beside.locations i j h
  by_cases hself : i = ℓ
  · subst hself
    obtain rfl := beside.oneToOne.location_right _ _ _ h paired
    exact ⟨d, d', by simp [hlt he], by simp [hlt he'], like⟩
  · have hother : j ≠ ℓ' := by
      rintro rfl
      exact hself (beside.oneToOne.location_left _ _ _ h paired)
    exact ⟨e, e', by rwa [Array.getElem?_setIfInBounds_ne (Ne.symm hself)],
      by rwa [Array.getElem?_setIfInBounds_ne (Ne.symm hother)], hlike⟩

end

end Reference

end Lox
