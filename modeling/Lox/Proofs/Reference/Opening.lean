import Lox.Proofs.Compile.Abreast.Programs
import Lox.Proofs.Reference.Relay

/-!
# Scripts side by side

Of two machines that have nothing to do one is given a piece of a script, and the other one the
whole. They stand at the beginning of the piece then, with all closures and locations that they had
before in common. When the machine of the whole has come to the end of a piece and another piece
follows, a machine that is given this one stands beside it.

## Main definitions

* `Reference.started` — a machine that has been given a script.
* `Picture.matching` — what one machine has in common with itself.

## Main results

* `Section.opens` — the piece at the beginning of the whole.
* `Section.follows` — the piece at the end of the whole.
-/

namespace Lox

variable {m : Machine} {r s s' : Reference} {p : Picture} {π : Matching} {t t₁ : Template}
  {constants ks ks' : List Constant} {shift : Nat} {outline : Outline}
    {code' before after : List UInt8}

/-! ### Giving a script to a machine -/

namespace Reference

/-- The machine that has been given a script. -/
def started (r : Reference) (t : Template) (constants : List Constant) : Reference :=
  { r with
    callables := r.callables.push (.closure { template := t, constants })
    store := r.store.push (.callable r.callables.size)
    stack := #[r.store.size]
    calls := [{ callee := r.callables.size, base := 0 }] }

/-- A machine that has nothing to do and room for a script starts it. -/
theorem start_of_room (stack : r.stack = #[]) (calls : r.calls = []) (room : 0 < r.stackMax)
    (arity : t.arity = 0) : start t constants r = .ok () (r.started t constants) := by
  have hmake : make (.closure { template := t, constants }) r = .ok r.callables.size
      { r with callables := r.callables.push (.closure { template := t, constants }) } := rfl
  have hpush : push (.callable r.callables.size)
      { r with callables := r.callables.push (.closure { template := t, constants }) } =
      .ok () { r with
        callables := r.callables.push (.closure { template := t, constants })
        store := r.store.push (.callable r.callables.size)
        stack := r.stack.push r.store.size } := by
    unfold push
    rw [if_neg (by simp only [stack, Array.size_empty]; omega)]
  rw [start, bind_of_ok hmake, bind_of_ok hpush]
  unfold call
  rw [bind_of_ok (get_apply _)]
  simp [closure?, demand, arity, calls, stack, started, Machine.maxFrames]

/-- Only a machine with room for a script runs it to its end. -/
theorem room_of_finished {budget : Nat} (run : runScript budget t constants r = .ok .finished s) :
    0 < r.stackMax := by
  by_contra hnone
  have hpush : ∀ id u q, push (.callable id)
      { r with callables := r.callables.push (.closure { template := t, constants }) } ≠
        .ok u q := by
    intro id u q
    unfold push
    rw [if_pos (Nat.le_trans (Nat.not_lt.mp hnone) (Nat.zero_le _))]
    exact raise_ne_ok _
  unfold runScript at run
  split at run
  · rename_i hrun
    obtain ⟨_, q, hstart, -⟩ := bind_eq_ok_iff.mp hrun
    obtain ⟨id, q', hmake, hstart⟩ := bind_eq_ok_iff.mp hstart
    cases hmake
    obtain ⟨_, _, hfirst, -⟩ := bind_eq_ok_iff.mp hstart
    exact hpush _ _ _ hfirst
  · cases run
  · cases run
  · cases run

end Reference

/-! ### What a machine has in common with itself -/

/-- Everything that handles stand for, paired with itself. -/
def Picture.matching (p : Picture) : Matching where
  callable i j := i = j ∧ ∃ h, p.callable h i
  location i j := i = j ∧ ∃ h, p.cell h i

theorem Picture.matching_oneToOne (p : Picture) : p.matching.OneToOne := by
  constructor
  · rintro i j j' ⟨rfl, -⟩ ⟨rfl, -⟩
    rfl
  · rintro i i' j ⟨rfl, -⟩ ⟨rfl, -⟩
    rfl
  · rintro i j j' ⟨rfl, -⟩ ⟨rfl, -⟩
    rfl
  · rintro i i' j ⟨rfl, -⟩ ⟨rfl, -⟩
    rfl

/-- What a value denotes has itself as its pair. -/
theorem Denotes.like {heap : Heap} {v : Value} {d : Datum} (denotes : Denotes heap p v d) :
    d.Like p.matching d := by
  cases denotes with
  | nil => exact .nil
  | bool b => exact .bool b
  | number x => exact .number x
  | text => exact .text _
  | callable h => exact .callable ⟨rfl, _, h⟩

/-- A machine that is mirrored has everything in common with itself that handles stand for. -/
theorem Machine.Mirroring.common (mirrors : Machine.Mirrors p m r) :
    Reference.Common p.matching r r := by
  refine ⟨p.matching_oneToOne, ?_, ?_, fun name => ?_, rfl, rfl, rfl, rfl⟩
  · rintro i _ ⟨rfl, h, hcallable⟩
    obtain ⟨o, c, -, hc, hembodies⟩ := mirrors.callables h i hcallable
    refine ⟨c, c, hc, hc, ?_⟩
    cases hembodies with
    | native => exact .native _
    | closure _ hcells =>
        refine .closure (.refl _) (List.forall₂_same.mpr fun ℓ hℓ => ⟨rfl, ?_⟩)
        obtain ⟨g, -, hg⟩ := exists_of_forall₂ hcells hℓ
        exact ⟨g, hg⟩
  · rintro ℓ _ ⟨rfl, h, hcell⟩
    cases mirrors.cells h ℓ hcell with
    | opened _ hslot =>
        obtain ⟨v, d, -, hd, hdenotes⟩ := mirrors.stored hslot
        exact ⟨d, d, hd, hd, hdenotes.like⟩
    | closed _ hd hdenotes => exact ⟨_, _, hd, hd, hdenotes.like⟩
  · cases hd : r.globals name with
    | none => exact .none
    | some d =>
        obtain ⟨g, v, -, -, hdenotes⟩ := mirrors.globals_left name d hd
        exact .some hdenotes.like

/-! ### Pieces of a script -/

open Reference (Beside Arrives Common)

/-- The end of a script is the same wherever it stands. -/
theorem laid_scriptEnd : Laid shift constants [(.pushNil, 1), (.giveBack, 1)] Compiler.scriptEnd
    Compiler.scriptEnd :=
  (Laid.single (show Relocates shift constants .pushNil _ _ from .plain rfl)).append
    (.single (show Relocates shift constants .giveBack _ _ from .plain rfl))

/-- Constants of a piece and their counterparts in the whole. -/
theorem kin_of_shift (others more : List Constant) (kin : List.Forall₂ Constant.Kin ks ks')
    (i : Nat) (c c' : Constant) (found : ks[i]? = some c)
    (found' : (others ++ (ks' ++ more))[others.length + i]? = some c') : c.Kin c' := by
  obtain ⟨hlt, -⟩ := List.getElem?_eq_some_iff.mp found
  rw [List.getElem?_append_right (Nat.le_add_right _ _), Nat.add_sub_cancel_left,
    List.getElem?_append_left (kin.length_eq ▸ hlt)] at found'
  have hrel := forall₂_getElem? kin i
  rw [found, found'] at hrel
  cases hrel with
  | some h => exact h

/-- A machine that has been given a script has its closure. -/
theorem Reference.closure?_started :
    (r.started t constants).closure? r.callables.size = some { template := t, constants } := by
  simp [started, closure?]

/-- A machine that has been given a piece, and one that is at the beginning of the piece in the
whole. -/
theorem Reference.Common.beside {F : Passage} (common : Common π s s') (fits : F.Fits)
    (stack : s'.stack.size = 1)
    (calls : s'.calls = [{ callee := F.whole, ip := F.front, base := 0 }])
    (whole : s'.closure? F.whole = some F.around) (room : 0 < s'.stackMax)
    (script : F.script = s.callables.size) (template : F.part.template = t)
    (pool : F.part.constants = constants) : Beside F π (s.started t constants) s' := by
  have hpart : F.part = { template := t, constants } := by
    rw [← template, ← pool, ← fits.captured]
  have hcommon : Common π (s.started t constants) s' := common.extend
      (fun _ _ h => Reference.getElem?_push_of_eq_some _ h)
      (fun _ _ h => Reference.getElem?_push_of_eq_some _ h) (fun _ _ h => h) (fun _ _ h => h)
      ⟨rfl, rfl, rfl, rfl, rfl⟩ ⟨rfl, rfl, rfl, rfl, rfl⟩
  refine { hcommon with
    fits, script := ?_, whole, bottom := Nat.one_pos, bottom' := ?_, stack := ?_, calls := ?_
    room := ?_ }
  · rw [script, hpart, Reference.closure?_started]
  · omega
  · rw [List.drop_eq_nil_of_le (by simp [started]),
      List.drop_eq_nil_of_le (by simp [stack])]
    exact .nil
  · rw [calls]
    exact .script script.symm rfl rfl rfl rfl (Nat.zero_le _)
  · rw [common.stackMax] at room
    exact room

/-- At the beginning of the whole there is its first piece. -/
theorem Section.opens (piece : Section 0 outline t₁ ks code' ks') (script : t₁.name = none)
    (more : List Constant) (split : t.code = code' ++ after) (mirrors : Machine.Mirrors p m r)
    (room : 0 < r.stackMax) :
    ∃ F : Passage, Beside F p.matching (r.started t₁ ks) (r.started t (ks' ++ more)) ∧
      F.part.template.code = F.code ++ Compiler.scriptEnd ∧
      (∀ entry ∈ F.outline, entry.1 ≠ .giveBack) ∧ F.front + F.code.length = code'.length ∧
      F.around = { template := t, constants := ks' ++ more } := by
  obtain ⟨⟨body, hcode, hlaid⟩, hkin, hendless⟩ := piece
  let F : Passage :=
    { script := r.callables.size, part := { template := t₁, constants := ks }
      whole := r.callables.size, around := { template := t, constants := ks' ++ more }
      front := 0, code := body, outline }
  have hfits : F.Fits :=
    { name := script, captured := rfl, captured' := rfl, code := .inr hcode
      code' := ⟨0, [], code', after, split, rfl, hlaid, kin_of_shift [] more hkin⟩ }
  have hcommon : Common p.matching r (r.started t (ks' ++ more)) :=
    mirrors.common.extend (fun _ _ h => h) (fun _ _ h => h)
      (fun _ _ h => Reference.getElem?_push_of_eq_some _ h)
      (fun _ _ h => Reference.getElem?_push_of_eq_some _ h) ⟨rfl, rfl, rfl, rfl, rfl⟩
      ⟨rfl, rfl, rfl, rfl, rfl⟩
  refine ⟨F, hcommon.beside hfits rfl rfl Reference.closure?_started room rfl rfl rfl, hcode,
    hendless, ?_, rfl⟩
  change 0 + body.length = _
  rw [hlaid.size_eq.1, hlaid.size_eq.2, Nat.zero_add]

/-- Behind a piece there is the next one. -/
theorem Section.follows {E : Passage} (arrives : Arrives E π s s')
    (piece : Section shift outline t₁ ks code' ks') (script : t₁.name = none)
    (front : E.front + E.code.length = before.length) {others : List Constant}
    (around : E.around = { template := t, constants := others ++ ks' })
    (shifted : shift = others.length) (split : t.code = before ++ code' ++ Compiler.scriptEnd) :
    ∃ F : Passage, Beside F π (s.started t₁ ks) s' ∧ F.part.template.code = F.code := by
  obtain ⟨⟨body, hcode, hlaid⟩, hkin, -⟩ := piece
  subst shifted
  let F : Passage :=
    { script := s.callables.size, part := { template := t₁, constants := ks }
      whole := E.whole, around := E.around, front := before.length
      code := body ++ Compiler.scriptEnd
      outline := outline ++ [(.pushNil, 1), (.giveBack, 1)] }
  have hfits : F.Fits :=
    { name := script, captured := rfl, captured' := by simp only [F, around], code := .inl hcode
      code' := by
        refine ⟨others.length, before, code' ++ Compiler.scriptEnd, [], ?_, rfl,
          hlaid.append laid_scriptEnd, fun i c c' hc hc' => ?_⟩
        · simp only [F, around]
          rw [split, List.append_nil, List.append_assoc]
        · simp only [F, around] at hc'
          exact kin_of_shift others [] hkin i c c' hc (by rwa [List.append_nil]) }
  refine ⟨F, arrives.common.beside hfits arrives.size ?_ arrives.whole
    arrives.room rfl rfl rfl, hcode⟩
  rw [arrives.calls, front]

end Lox
