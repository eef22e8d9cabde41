import Lox.Machine.Step
import Lox.Proofs.Machine.Renaming

/-!
# Machines in lockstep

Two machines that differ in their handles only execute the same instruction, in the same way, and
differ in their handles only afterwards. So do two runs of the same number of steps.

## Main results

* `execute_agrees`, `step_agrees`, `run_agrees` — instructions, steps and runs.
-/

namespace Lox

namespace Machine

variable {m m' n n' : Machine} {ρ ρ' : Renaming} {g h : Handle} {v w : Value} {fr fr' : Frame}
  {c c' : Closure}

/-! ### Reading code -/

/-- The innermost calls are alike. -/
theorem frame_finds (alike : m.Alike ρ m') :
    Finds m m' (fun fr fr' => fr.Alike ρ fr' ∧ fr ∈ m.frames) frame frame := by
  have hframes := alike.frames
  unfold Finds frame
  rw [bind_of_ok (get_apply m), bind_of_ok (get_apply m')]
  refine demand_finds ?_
  cases hf : m.frames with
  | nil =>
      rw [hf] at hframes
      rw [List.forall₂_nil_left_iff.mp hframes]
      exact .none
  | cons fr outer =>
      rw [hf] at hframes
      obtain ⟨fr', outer', hframe, -, heq⟩ := List.forall₂_cons_left_iff.mp hframes
      rw [heq]
      exact .some ⟨hframe, List.mem_cons_self ..⟩

/-- Moving the innermost calls to the same offset. -/
theorem setIp_agrees (alike : m.Alike ρ m') (ip : Nat) :
    Agrees (fun _ n _ n' => n.Alike ρ n' ∧ n.stack = m.stack) (setIp ip m) (setIp ip m') := by
  have hframes := alike.frames
  unfold setIp
  rw [modify_apply, modify_apply]
  cases hf : m.frames with
  | nil =>
      rw [hf] at hframes
      rw [List.forall₂_nil_left_iff.mp hframes]
      exact .ok ⟨alike, rfl⟩
  | cons fr outer =>
      rw [hf] at hframes
      obtain ⟨fr', outer', hframe, houter, heq⟩ := List.forall₂_cons_left_iff.mp hframes
      rw [heq]
      refine .ok
        ⟨{ alike with frames := .cons { hframe with ip := rfl } houter, entered := ?_ }, rfl⟩
      intro f hmem
      rcases List.mem_cons.mp hmem with rfl | hmem
      · exact alike.entered fr (by simp [hf])
      · exact alike.entered f (by simp [hf, hmem])

/-- The code of the innermost calls: the bytes are the same, and the constants are alike and are
reached. -/
theorem chunk_finds (alike : m.Alike ρ m') :
    Finds m m' (fun c c' => c'.code = c.code ∧
      List.Forall₂ (Value.Alike ρ) c.constants.toList c'.constants.toList ∧
      ∀ g, .object g ∈ c.constants.toList → m.heap.Reaches m.rooted g) chunk chunk := by
  unfold Finds chunk
  refine (frame_finds alike).bind fun fr fr' hframe => ?_
  refine (ask_finds (alike.heap.function hframe.1.function)).bind fun f f' hf => ?_
  refine finds_pure ⟨hf.1.code, hf.1.constants, fun g hg => ?_⟩
  exact (alike.reaches_function hframe.2).child hf.2
    (by simp [Object.children, Array.mem_toList_iff.mp hg])

/-- A constant of the innermost calls. -/
theorem constant_finds (alike : m.Alike ρ m') (index : Nat) :
    Finds m m' (fun v w => v.Alike ρ w ∧ ∀ g, v = .object g → m.heap.Reaches m.rooted g)
      (constant index) (constant index) := by
  unfold Finds constant
  refine (chunk_finds alike).bind fun k k' hk => ?_
  have hrel := forall₂_getElem? hk.2.1 index
  rw [Array.getElem?_toList, Array.getElem?_toList] at hrel
  cases hv : k.constants[index]? with
  | none =>
      rw [hv] at hrel
      generalize k'.constants[index]? = o at hrel
      cases hrel
      exact stop_agrees _
  | some v =>
      rw [hv] at hrel
      generalize k'.constants[index]? = o at hrel
      cases hrel with
      | some hvalue =>
          refine finds_pure ⟨hvalue, ?_⟩
          rintro g rfl
          exact hk.2.2 g (Array.mem_toList_iff.mpr (Array.mem_of_getElem? hv))

/-- The same operand in the same bytes. -/
theorem operandAt?_congr {k k' : Chunk} (code : k'.code = k.code) (op : OpCode) (offset : Nat) :
    operandAt? k' op offset = operandAt? k op offset := by
  unfold operandAt? Chunk.pairAt?
  rw [code]

/-- Reading the same byte. -/
theorem readByte_agrees (alike : m.Alike ρ m') :
    Agrees (fun a n b n' => b = a ∧ n.Alike ρ n' ∧ n.stack = m.stack)
      (readByte m) (readByte m') := by
  unfold readByte
  refine (frame_finds alike).bind fun fr fr' hframe => ?_
  refine (chunk_finds alike).bind fun k k' hk => ?_
  rw [hk.1, hframe.1.ip]
  refine Finds.bind (demand_finds_eq _) ?_
  rintro _ a rfl
  refine (setIp_agrees alike _).bind ?_
  rintro _ n _ n' hn
  exact .ok ⟨rfl, hn⟩

/-- Fetching the same instruction. -/
theorem fetch_agrees (alike : m.Alike ρ m') :
    Agrees (fun a n b n' => b = a ∧ n.Alike ρ n') (fetch m) (fetch m') := by
  unfold fetch
  refine (frame_finds alike).bind fun fr fr' hframe => ?_
  refine (chunk_finds alike).bind fun k k' hk => ?_
  rw [hk.1, hframe.1.ip]
  refine Finds.bind (demand_finds_eq _) ?_
  rintro _ byte rfl
  cases OpCode.ofByte? byte with
  | none =>
      refine (setIp_agrees alike _).bind ?_
      rintro _ n _ n' hn
      exact raise_agrees hn.1 _
  | some op =>
      simp only
      rw [operandAt?_congr hk.1]
      refine Finds.bind (demand_finds_eq _) ?_
      rintro _ operand rfl
      refine (setIp_agrees alike _).bind ?_
      rintro _ n _ n' hn
      exact .ok ⟨rfl, hn.1⟩

/-! ### Variables -/

/-- A constant that names a global. -/
theorem nameConstant_finds (alike : m.Alike ρ m') (index : Nat) :
    Finds m m' ρ (nameConstant index) (nameConstant index) := by
  unfold Finds nameConstant
  refine (constant_finds alike index).bind fun v w hv => ?_
  have hraise : ∀ {v w : Value}, v.Alike ρ w → Finds m m' ρ
      (do raise (.nameExpected (← ask (·.heap.display v))))
      (do raise (.nameExpected (← ask (·.heap.display w)))) := fun {v w} hvalue => by
    refine Finds.bind (ask_finds_eq (alike.heap.display hvalue)) fun a b hab => ?_
    rw [hab.1]
    exact raise_agrees alike _
  obtain ⟨hvalue, -⟩ := hv
  cases hvalue with
  | nil => exact hraise .nil
  | bool b => exact hraise (.bool b)
  | number x => exact hraise (.number x)
  | @object g h hpair =>
      refine (ask_finds_eq (alike.heap.isString (.object hpair))).bind fun a b hab => ?_
      rw [hab.1]
      cases a with
      | true => exact finds_pure hpair
      | false => exact hraise (.object hpair)

/-- The global of a paired name. -/
theorem Alike.global (alike : m.Alike ρ m') (pair : ρ g h) :
    Option.Rel (Value.Alike ρ) m.globals[g]? m'.globals[h]? := by
  cases hv : m.globals[g]? with
  | some v =>
      obtain ⟨h', w, hpair, hw, hvalue⟩ := alike.globals.right g v hv
      obtain rfl := alike.heap.oneToOne.right _ _ _ pair hpair
      rw [hw]
      exact .some hvalue
  | none =>
      cases hw : m'.globals[h]? with
      | none => exact .none
      | some w =>
          obtain ⟨g', v, hpair, hv', -⟩ := alike.globals.left h w hw
          obtain rfl := alike.heap.oneToOne.left _ _ _ pair hpair
          rw [hv] at hv'
          cases hv'

/-- An undefined variable is undefined for both. -/
theorem undefined_agrees {α : Type} (alike : m.Alike ρ m') (pair : ρ g h)
    {R : α → Machine → α → Machine → Prop} :
    Agrees R ((do raise (.undefinedVariable (← ask (·.heap.string g))) : Action α) m)
      ((do raise (.undefinedVariable (← ask (·.heap.string h))) : Action α) m') := by
  refine Finds.bind (ask_finds_eq (alike.heap.string pair)) fun a b hab => ?_
  rw [hab.1]
  exact raise_agrees alike _

/-- Reading the global of a paired name. -/
theorem readGlobal_finds (alike : m.Alike ρ m') (pair : ρ g h) :
    Finds m m' (Value.Alike ρ) (readGlobal g) (readGlobal h) := by
  have hrel := alike.global pair
  unfold Finds readGlobal
  rw [bind_of_ok (get_apply m), bind_of_ok (get_apply m')]
  generalize m.globals[g]? = o at hrel ⊢
  generalize m'.globals[h]? = o' at hrel ⊢
  cases hrel with
  | none => exact undefined_agrees alike pair
  | some hvalue => exact finds_pure hvalue

/-- Setting the global of a paired name. -/
theorem Alike.setGlobal (alike : m.Alike ρ m') (pair : ρ g h) (value : v.Alike ρ w) :
    ({ m with globals := m.globals.insert g v } : Machine).Alike ρ
      { m' with globals := m'.globals.insert h w } := by
  refine { alike with globals := ⟨fun a x hx => ?_, fun b y hy => ?_⟩ }
  · rw [Std.TreeMap.getElem?_insert] at hx
    split at hx
    · rename_i heq
      obtain rfl := Std.LawfulEqCmp.eq_of_compare heq
      cases hx
      exact ⟨h, w, pair, by simp, value⟩
    · rename_i hne
      obtain ⟨b, y, hpair, hy, hvalue⟩ := alike.globals.right a x hx
      refine ⟨b, y, hpair, ?_, hvalue⟩
      rw [Std.TreeMap.getElem?_insert, if_neg, hy]
      intro heq
      obtain rfl := Std.LawfulEqCmp.eq_of_compare heq
      obtain rfl := alike.heap.oneToOne.left _ _ _ hpair pair
      exact hne (Std.ReflCmp.compare_self)
  · rw [Std.TreeMap.getElem?_insert] at hy
    split at hy
    · rename_i heq
      obtain rfl := Std.LawfulEqCmp.eq_of_compare heq
      cases hy
      exact ⟨g, v, pair, by simp, value⟩
    · rename_i hne
      obtain ⟨a, x, hpair, hx, hvalue⟩ := alike.globals.left b y hy
      refine ⟨a, x, hpair, ?_, hvalue⟩
      rw [Std.TreeMap.getElem?_insert, if_neg, hx]
      intro heq
      obtain rfl := Std.LawfulEqCmp.eq_of_compare heq
      obtain rfl := alike.heap.oneToOne.right _ _ _ hpair pair
      exact hne (Std.ReflCmp.compare_self)

/-- Assigning the global of a paired name. -/
theorem assignGlobal_agrees (alike : m.Alike ρ m') (pair : ρ g h) :
    Agrees (fun _ n _ n' => n.Alike ρ n') (assignGlobal g m) (assignGlobal h m') := by
  have hrel := alike.global pair
  have hcontains : m'.globals.contains h = m.globals.contains g := by
    rw [Std.TreeMap.contains_eq_isSome_getElem?, Std.TreeMap.contains_eq_isSome_getElem?]
    generalize m.globals[g]? = o at hrel ⊢
    generalize m'.globals[h]? = o' at hrel ⊢
    cases hrel <;> rfl
  unfold assignGlobal
  rw [bind_of_ok (get_apply m), bind_of_ok (get_apply m'), hcontains]
  split
  · refine (peek_finds alike 0).bind fun v w hvalue => ?_
    exact .ok (alike.setGlobal pair hvalue)
  · exact undefined_agrees alike pair

/-- A cell that the innermost calls have captured. -/
theorem capturedCell_finds (alike : m.Alike ρ m') (index : Nat) :
    Finds m m' ρ (capturedCell index) (capturedCell index) := by
  unfold Finds capturedCell
  refine (frame_finds alike).bind fun fr fr' hframe => ?_
  refine (ask_finds (alike.heap.closure hframe.1.closure)).bind fun c c' hc => ?_
  have hrel := forall₂_getElem? hc.1.cells index
  rw [Array.getElem?_toList, Array.getElem?_toList] at hrel
  exact demand_finds hrel

/-- The value of a paired cell. -/
theorem readCell_finds (alike : m.Alike ρ m') (pair : ρ g h) :
    Finds m m' (Value.Alike ρ) (readCell g) (readCell h) := by
  unfold Finds readCell
  refine (ask_finds (alike.heap.cell pair)).bind fun c c' hc => ?_
  cases hc with
  | opened slot => exact slotValue_finds alike slot
  | closed hvalue => exact finds_pure hvalue

/-- Assigning the variable of a paired cell. -/
theorem writeCell_agrees (alike : m.Alike ρ m') (pair : ρ g h) (value : v.Alike ρ w) :
    Agrees (fun _ n _ n' => n.Alike ρ n') (writeCell g v m) (writeCell h w m') := by
  unfold writeCell
  refine (ask_finds (alike.heap.cell pair)).bind fun c c' hc => ?_
  cases hc with
  | opened slot => exact setSlot_agrees alike slot value
  | closed => exact (closing_agrees alike pair value).imp fun _ _ _ _ => And.left

/-! ### Operators -/

/-- Values that are alike count as false alike. -/
theorem isFalsey_eq (value : v.Alike ρ w) : w.isFalsey = v.isFalsey := by
  cases value <;> rfl

/-- Values that are alike are the same alike. -/
theorem same_eq (alike : m.Alike ρ m') {v' w' : Value} (value : v.Alike ρ w)
    (value' : v'.Alike ρ w') : w.same w' = v.same v' := by
  cases value <;> cases value' <;> try rfl
  rename_i g h hpair g' h' hpair'
  simp only [Value.same, decide_eq_decide]
  constructor
  · rintro rfl
    exact alike.heap.oneToOne.left _ _ _ hpair hpair'
  · rintro rfl
    exact alike.heap.oneToOne.right _ _ _ hpair hpair'

/-- Pushing as the end of an instruction. -/
theorem push_goes (alike : m.Alike ρ m') (value : v.Alike ρ w) :
    Agrees Goes (push v m) (push w m') :=
  (push_agrees alike value).imp fun _ _ _ _ h => ⟨rfl, ρ, h.1⟩

/-- Two values are replaced by one. -/
theorem popTwo_goes (alike : m.Alike ρ m') (value : v.Alike ρ w) :
    Agrees Goes ((do let _ ← pop; let _ ← pop; push v : Action Unit) m)
      ((do let _ ← pop; let _ ← pop; push w : Action Unit) m') := by
  refine (pop_agrees alike).bind ?_
  rintro _ n _ n' ⟨hn, -⟩
  refine (pop_agrees hn).bind ?_
  rintro _ k _ k' ⟨hk, -⟩
  exact push_goes hk value

/-- An operator of numbers. -/
theorem binary_goes (alike : m.Alike ρ m') (operation : Float → Float → Value)
    (plain : ∀ x y, (operation x y).Alike ρ (operation x y)) :
    Agrees Goes (binary operation m) (binary operation m') := by
  unfold binary
  refine (peek_finds alike 1).bind fun v w hleft => ?_
  refine (peek_finds alike 0).bind fun v' w' hright => ?_
  cases hleft with
  | number x =>
      cases hright with
      | number y => exact popTwo_goes alike (plain x y)
      | nil | bool | object => exact raise_agrees alike _
  | nil | bool | object => exact raise_agrees alike _

/-- Joining two strings. -/
theorem concat_agrees (alike : m.Alike ρ m') {g' h' : Handle} (left : ρ g h) (right : ρ g' h') :
    Agrees (fun a n b n' => ∃ ρ', Moves m ρ m' n ρ' n' ∧ ρ' a b) (concat g g' m)
      (concat h h' m') := by
  refine withRoots_agrees alike (R := fun ρ' a b => ρ' a b) ?_ fun a mid hrun => ?_
  · unfold Heap.concat
    rw [alike.heap.string left, alike.heap.string right]
    cases m.heap.string g with
    | error f => exact .fail rfl
    | ok s =>
        cases m.heap.string g' with
        | error f => exact .fail rfl
        | ok t =>
            refine (alike.heap.intern alike.covers (s ++ t)).mono ?_ (fun _ _ _ _ h => h.elim)
            rintro a mid b mid' ⟨ρ', honward, hpair, -⟩
            exact ⟨ρ', honward, hpair⟩
  · obtain ⟨text, hrun⟩ := Heap.intern_of_concat hrun
    exact (Heap.internedAs_of_ok alike.heap.valid.toOrderly hrun).obliging alike.obliging

/-- Adding numbers and joining strings. -/
theorem add_goes (alike : m.Alike ρ m') : Agrees Goes (add m) (add m') := by
  unfold add
  refine (peek_finds alike 1).bind fun v w hleft => ?_
  refine (peek_finds alike 0).bind fun v' w' hright => ?_
  cases hleft with
  | number x =>
      cases hright with
      | number y => exact popTwo_goes alike (.number (x + y))
      | nil | bool | object => exact raise_agrees alike _
  | nil | bool => exact raise_agrees alike _
  | object hpair =>
      cases hright with
      | nil | bool | number => exact raise_agrees alike _
      | object hpair' =>
          refine (ask_finds_eq (alike.heap.isString (.object hpair))).bind fun a b hab => ?_
          rw [hab.1]
          split
          · exact raise_agrees alike _
          refine (ask_finds_eq (alike.heap.isString (.object hpair'))).bind fun a' b' hab' => ?_
          rw [hab'.1]
          split
          · exact raise_agrees alike _
          refine (concat_agrees alike hpair hpair').bind ?_
          rintro g n h n' ⟨ρ', hmoves, hjoined⟩
          exact popTwo_goes hmoves.alike (.object hjoined)

/-- Changing the sign of a number. -/
theorem negate_goes (alike : m.Alike ρ m') : Agrees Goes (negate m) (negate m') := by
  unfold negate
  refine (peek_finds alike 0).bind fun v w hvalue => ?_
  cases hvalue with
  | number x =>
      refine (pop_agrees alike).bind ?_
      rintro _ n _ n' ⟨hn, -⟩
      exact push_goes hn (.number (-x))
  | nil | bool | object => exact raise_agrees alike _

/-! ### Calls -/

/-- Calling paired closures. -/
theorem call_agrees (alike : m.Alike ρ m') (pair : ρ g h) (count : Nat) :
    Agrees (fun _ n _ n' => n.Alike ρ n') (call g count m) (call h count m') := by
  unfold call
  refine (ask_finds (alike.heap.closure pair)).bind fun c c' hc => ?_
  refine (ask_finds (alike.heap.function hc.1.function)).bind fun f f' hf => ?_
  rw [bind_of_ok (get_apply m), bind_of_ok (get_apply m'), hf.1.arity, alike.size,
    alike.frames.length_eq]
  split
  · exact raise_agrees alike _
  split
  · exact raise_agrees alike _
  split
  · exact stop_agrees _
  refine .ok
    { alike with frames := .cons ⟨pair, hc.1.function, rfl, rfl⟩ alike.frames, entered := ?_ }
  intro fr hfr
  rcases List.mem_cons.mp hfr with rfl | hfr
  · exact ⟨c, hc.2, rfl⟩
  · exact alike.entered fr hfr

/-- Calling a host function that does not look at handles. -/
theorem callNative_agrees (alike : m.Alike ρ m') {native : Native}
    (equivariant : native.run.Equivariant) (count : Nat) :
    Agrees (fun _ n _ n' => n.Alike ρ n') (callNative native count m)
      (callNative native count m') := by
  have hargs : List.Forall₂ (Value.Alike ρ) (m.stack.extract (m.stack.size - count)).toList
      (m'.stack.extract (m'.stack.size - count)).toList := by
    rw [Array.toList_extract, Array.toList_extract, alike.size]
    exact List.forall₂_take _ (List.forall₂_drop _ alike.stack)
  have hresult := equivariant ρ alike.heap.oneToOne (m.clock m.hostCalls) _ _ hargs
  have hcounted : ({ m with hostCalls := m.hostCalls + 1 } : Machine).Alike ρ
      { m' with hostCalls := m'.hostCalls + 1 } :=
        { alike with hostCalls := by rw [alike.hostCalls] }
  unfold callNative truncate
  rw [bind_of_ok (get_apply m), bind_of_ok (get_apply m'), bind_of_ok (modify_apply _ _),
    bind_of_ok (modify_apply _ _), bind_of_ok (modify_apply _ _), bind_of_ok (modify_apply _ _)]
  refine (push_agrees (v := native.run (m.clock m.hostCalls)
    (m.stack.extract (m.stack.size - count))) ?_ ?_).imp fun _ _ _ _ => And.left
  · rw [alike.size]
    exact hcounted.truncate _
  · rw [alike.clock, alike.hostCalls]
    exact hresult

/-- Calling values that are alike. -/
theorem callValue_agrees (alike : m.Alike ρ m') (count : Nat) :
    Agrees (fun _ n _ n' => n.Alike ρ n') (callValue count m) (callValue count m') := by
  unfold callValue
  refine (peek_finds alike count).bind fun v w hvalue => ?_
  cases hvalue with
  | nil | bool | number => exact raise_agrees alike _
  | @object g h hpair =>
      refine (ask_finds_eq (alike.heap.kind hpair)).bind fun kind _ hkind => ?_
      rw [hkind.1]
      cases kind with
      | closure => exact call_agrees alike hpair count
      | native =>
          refine (ask_finds_eq (alike.heap.native hpair)).bind fun n _ hn => ?_
          rw [hn.1]
          exact callNative_agrees alike (alike.obliging g n (Heap.native_eq_ok_iff.mp hn.2)) count
      | string | function | cell => exact raise_agrees alike _

/-! ### Closures -/

/-- Allocating objects that are alike. -/
theorem allocate_agrees (alike : m.Alike ρ m') {o o' : Object} (same : o.Alike ρ o')
    (other : ∀ text, o ≠ .string text) (plain : ∀ n, o ≠ .native n)
    (children : ∀ c, .object c ∈ o.children → m.heap.Reaches m.rooted c) :
    Agrees (fun a n b n' => ∃ ρ', Moves m ρ m' n ρ' n' ∧ ρ' a b) (allocate o m)
      (allocate o' m') := by
  refine withRoots_agrees alike (R := fun ρ' a b => ρ' a b) ?_ fun a mid hrun => ?_
  · refine (alike.heap.allocate alike.covers same other children).mono ?_ (fun _ _ _ _ h => h.elim)
    rintro a mid b mid' ⟨ρ', honward, hpair, -⟩
    exact ⟨ρ', honward, hpair⟩
  · exact (Heap.allocated_of_ok alike.heap.valid.toOrderly hrun).obliging alike.obliging
      fun n hn => absurd hn (plain n)

/-- Allocating closures of paired functions. -/
theorem allocateClosure_agrees (alike : m.Alike ρ m') (pair : ρ g h)
    (reaches : m.heap.Reaches m.rooted g) :
    Agrees (fun a n b n' => ∃ ρ', Moves m ρ m' n ρ' n' ∧ ρ' a b) (allocateClosure g m)
      (allocateClosure h m') := by
  refine withRoots_agrees alike (R := fun ρ' a b => ρ' a b) ?_ fun a mid hrun => ?_
  · have hfunction := alike.heap.function pair
    unfold Heap.allocateClosure
    generalize m.heap.function g = x at hfunction ⊢
    generalize m'.heap.function h = y at hfunction ⊢
    cases hfunction with
    | error f => exact .fail rfl
    | @ok f f' hf =>
        simp only [hf.1.upvalueCount]
        split
        · exact .fail rfl
        have hnew : (Object.closure { function := g, room := f.upvalueCount }).Alike ρ
            (.closure { function := h, room := f.upvalueCount }) := .closure ⟨pair, .nil, rfl⟩
        refine (alike.heap.allocate alike.covers hnew (fun _ h => by cases h) fun c hc => ?_).mono
          ?_ (fun _ _ _ _ h => h.elim)
        · obtain rfl : c = g := by simpa [Object.children] using hc
          exact reaches
        · rintro a mid b mid' ⟨ρ', honward, hpair, -⟩
          exact ⟨ρ', honward, hpair⟩
  · obtain ⟨c, hrun⟩ := Heap.allocate_of_allocateClosure hrun
    exact (Heap.allocated_of_ok alike.heap.valid.toOrderly hrun).obliging alike.obliging
      fun n hn => by cases hn

/-- The open cells of the same slot. -/
theorem openCell_agrees (alike : m.Alike ρ m') (slot : Nat) :
    Agrees (fun a n b n' => ∃ ρ', n.Alike ρ' n' ∧ ρ' a b ∧ n.stack = m.stack ∧
        ∀ g h, ρ g h → m.heap.Reaches m.rooted g → ρ' g h)
      (openCell slot m) (openCell slot m') := by
  have hfind : Option.Rel ρ (m.openCells.find? slot) (m'.openCells.find? slot) := by
    have hall := alike.openCells
    unfold OpenCells.find?
    generalize m.openCells.entries = es at hall ⊢
    generalize m'.openCells.entries = es' at hall ⊢
    induction hall with
    | nil => exact .none
    | @cons e e' _ _ he _ ih =>
        rw [List.find?_cons, List.find?_cons, he.1]
        split
        · exact .some he.2
        · exact ih
  unfold openCell
  rw [bind_of_ok (get_apply m), bind_of_ok (get_apply m')]
  generalize m.openCells.find? slot = o at hfind ⊢
  generalize m'.openCells.find? slot = o' at hfind ⊢
  cases hfind with
  | some hpair => exact .ok ⟨ρ, alike, hpair, rfl, fun _ _ h _ => h⟩
  | none =>
      refine (allocate_agrees alike (.opened slot) (fun _ h => by cases h) (fun _ h => by cases h)
        (by simp [Object.children])).bind ?_
      rintro a n b n' ⟨ρ', hmoves, hpair⟩
      refine .ok ⟨ρ', { hmoves.alike with openCells := ?_ }, hpair, by rw [hmoves.first],
        hmoves.pairs⟩
      have hall := hmoves.alike.openCells
      unfold OpenCells.insert
      simp only
      generalize n.openCells.entries = es at hall ⊢
      generalize n'.openCells.entries = es' at hall ⊢
      induction hall with
      | nil => exact .cons ⟨rfl, hpair⟩ .nil
      | @cons e e' _ _ he hrest ih =>
          unfold OpenCells.insertEntry
          rw [he.1]
          split
          · exact .cons he ih
          split
          · exact .cons he hrest
          · exact .cons ⟨rfl, hpair⟩ (.cons he hrest)

/-- Adding paired cells to paired closures. -/
theorem capture_agrees (alike : m.Alike ρ m') (pair : ρ g h) {cell cell' : Handle}
    (cells : ρ cell cell') :
    Agrees (fun _ n _ n' => n.Alike ρ n' ∧ n.stack = m.stack) (onHeap (Heap.capture g cell) m)
      (onHeap (Heap.capture h cell') m') := by
  have hclosure := alike.heap.closure pair
  unfold onHeap Heap.capture
  generalize m.heap.closure g = x at hclosure ⊢
  generalize m'.heap.closure h = y at hclosure ⊢
  cases hclosure with
  | error f => exact .fail .fault
  | @ok c c' hc =>
      refine .ok ⟨alike.replace pair (.closure ⟨hc.1.function, ?_, ?_⟩) hc.2 (.inr rfl) rfl ?_, rfl⟩
      · simp only [Closure.capture, Array.toList_push]
        exact List.rel_append hc.1.cells (.cons cells .nil)
      · have hsize := hc.1.cells.length_eq
        simp only [Array.length_toList] at hsize
        simp only [Closure.capture, hc.1.room, hsize]
      · rintro k ⟨⟩
        exact ⟨_, rfl, rfl⟩

/-- Capturing the next variable for paired closures that are on the stack. -/
theorem captureNext_agrees (alike : m.Alike ρ m') (pair : ρ g h)
    (onStack : .object g ∈ m.stack.toList) :
    Agrees (fun _ n _ n' => ∃ ρ', n.Alike ρ' n' ∧ ρ' g h ∧ .object g ∈ n.stack.toList)
      (captureNext g m) (captureNext h m') := by
  unfold captureNext
  refine (readByte_agrees alike).bind ?_
  rintro _ n kind n' ⟨rfl, hn, hstack⟩
  refine (readByte_agrees hn).bind ?_
  rintro _ k index k' ⟨rfl, hk, hstack'⟩
  have honStack : .object g ∈ k.stack.toList := by rwa [hstack', hstack]
  -- the cell is a root by the time that the closure captures it
  have hcapture : ∀ {q q' : Machine} {ρ' : Renaming} {x y : Handle}, q.Alike ρ' q' → ρ' x y →
      q.stack = k.stack → ρ' g h →
      Agrees (fun _ n _ n' => ∃ ρ', n.Alike ρ' n' ∧ ρ' g h ∧ .object g ∈ n.stack.toList)
        (onHeap (Heap.capture g x) q) (onHeap (Heap.capture h y) q') := by
    intro q q' ρ' x y hq hcell hstack'' hpair
    refine (capture_agrees hq hpair hcell).imp ?_
    rintro _ r _ r' ⟨hr, hsame⟩
    exact ⟨ρ', hr, hpair, by rwa [hsame, hstack'']⟩
  dsimp only
  split
  · refine (frame_finds hk).bind fun fr fr' hframe => ?_
    rw [hframe.1.slots]
    refine (openCell_agrees hk _).bind ?_
    rintro x q y q' ⟨ρ', hq, hcell, hsame, hpairs⟩
    exact hcapture hq hcell hsame (hpairs g h pair (.root (mem_rooted.mpr (.inl honStack))))
  · refine (capturedCell_finds hk _).bind fun x y hcell => ?_
    exact hcapture hk hcell rfl pair

/-- Capturing the same count of variables. -/
theorem captureAll_agrees (alike : m.Alike ρ m') (pair : ρ g h)
    (onStack : .object g ∈ m.stack.toList) (count : Nat) :
    Agrees Goes (captureAll g count m) (captureAll h count m') := by
  induction count generalizing m m' ρ with
  | zero => exact .ok ⟨rfl, ρ, alike⟩
  | succ count ih =>
      refine (captureNext_agrees alike pair onStack).bind ?_
      rintro _ n _ n' ⟨ρ', hn, hpair, honStack⟩
      exact ih hn hpair honStack

/-- Making closures of constants that are alike. -/
theorem makeClosure_goes (alike : m.Alike ρ m') (index : Nat) :
    Agrees Goes (makeClosure index m) (makeClosure index m') := by
  unfold makeClosure
  refine (constant_finds alike index).bind fun v w hv => ?_
  obtain ⟨hvalue, hreach⟩ := hv
  cases hvalue with
  | nil | bool | number => exact raise_agrees alike _
  | @object f f' hpair =>
      refine (allocateClosure_agrees alike hpair (hreach f rfl)).bind ?_
      rintro c n c' n' ⟨ρ', hmoves, hclosure⟩
      refine (push_agrees hmoves.alike (.object hclosure)).bind ?_
      rintro _ k _ k' ⟨hk, heq, -⟩
      have hfunction := hmoves.pairs f f' hpair (hreach f rfl)
      refine (ask_finds (hk.heap.function hfunction)).bind fun t t' ht => ?_
      rw [ht.1.upvalueCount]
      exact captureAll_agrees hk hclosure (by simp [heq]) _

/-! ### Instructions -/

/-- Jumping the same distance. -/
theorem jump_goes (alike : m.Alike ρ m') (distance : Nat) :
    Agrees Goes (jump distance m) (jump distance m') := by
  unfold jump
  refine (frame_finds alike).bind fun fr fr' hframe => ?_
  rw [hframe.1.ip]
  exact (setIp_agrees alike _).imp fun _ _ _ _ h => ⟨rfl, ρ, h.1⟩

/-- Jumping back the same distance. -/
theorem jumpBack_goes (alike : m.Alike ρ m') (distance : Nat) :
    Agrees Goes (jumpBack distance m) (jumpBack distance m') := by
  unfold jumpBack
  refine (frame_finds alike).bind fun fr fr' hframe => ?_
  rw [hframe.1.ip]
  split
  · exact (setIp_agrees alike _).imp fun _ _ _ _ h => ⟨rfl, ρ, h.1⟩
  · exact stop_agrees _

/-- Printing values that are alike. -/
theorem print_goes (alike : m.Alike ρ m') : Agrees Goes (print m) (print m') := by
  unfold print
  refine (pop_agrees alike).bind ?_
  rintro v n w n' ⟨hn, hvalue, -⟩
  refine (ask_finds_eq (hn.heap.display hvalue)).bind fun a b hab => ?_
  rw [hab.1]
  exact .ok ⟨rfl, ρ, { hn with printout := congrArg (·.writeLine a) hn.printout }⟩

/-- Popping as the end of an instruction. -/
theorem pop_goes (alike : m.Alike ρ m') :
    Agrees Goes ((do let _ ← pop : Action Unit) m) ((do let _ ← pop : Action Unit) m') :=
  Agree.bind (pop_agrees alike) fun _ _ _ _ h => .ok ⟨rfl, ρ, h.1⟩

/-- Taking captured variables off the stack. -/
theorem closeTop_goes (alike : m.Alike ρ m') : Agrees Goes (closeTop m) (closeTop m') := by
  have hrest : Agrees Goes ((do closeFrom (m.stack.size - 1); let _ ← pop : Action Unit) m)
      ((do closeFrom (m.stack.size - 1); let _ ← pop : Action Unit) m') := by
    refine (closeFrom_agrees alike _).bind ?_
    rintro _ n _ n' ⟨hn, -⟩
    exact pop_goes hn
  unfold closeTop
  rw [bind_of_ok (get_apply m), bind_of_ok (get_apply m'), alike.size]
  split
  · exact .fail .fault
  · exact hrest

/-- Every instruction does the same to machines that are alike. -/
theorem execute_agrees (alike : m.Alike ρ m') (op : OpCode) (operand : Nat) :
    Agrees Goes (execute op operand m) (execute op operand m') := by
  cases op with
  | constant => exact (constant_finds alike _).bind fun v w hv => push_goes alike hv.1
  | pushNil => exact push_goes alike .nil
  | pushTrue => exact push_goes alike (.bool true)
  | pushFalse => exact push_goes alike (.bool false)
  | pop => exact pop_goes alike
  | getLocal =>
      refine (frame_finds alike).bind fun fr fr' hframe => ?_
      rw [hframe.1.slots]
      exact (slotValue_finds alike _).bind fun v w hvalue => push_goes alike hvalue
  | setLocal =>
      refine (frame_finds alike).bind fun fr fr' hframe => ?_
      rw [hframe.1.slots]
      refine (peek_finds alike 0).bind fun v w hvalue => ?_
      exact (setSlot_agrees alike _ hvalue).imp fun _ _ _ _ h => ⟨rfl, ρ, h⟩
  | getGlobal =>
      refine (nameConstant_finds alike _).bind fun g h hpair => ?_
      exact (readGlobal_finds alike hpair).bind fun v w hvalue => push_goes alike hvalue
  | defineGlobal =>
      refine (nameConstant_finds alike _).bind fun g h hpair => ?_
      refine (peek_finds alike 0).bind fun v w hvalue => ?_
      exact pop_goes (alike.setGlobal hpair hvalue)
  | setGlobal =>
      refine (nameConstant_finds alike _).bind fun g h hpair => ?_
      exact (assignGlobal_agrees alike hpair).imp fun _ _ _ _ h => ⟨rfl, ρ, h⟩
  | getUpvalue =>
      refine (capturedCell_finds alike _).bind fun g h hpair => ?_
      exact (readCell_finds alike hpair).bind fun v w hvalue => push_goes alike hvalue
  | setUpvalue =>
      refine (capturedCell_finds alike _).bind fun g h hpair => ?_
      refine (peek_finds alike 0).bind fun v w hvalue => ?_
      exact (writeCell_agrees alike hpair hvalue).imp fun _ _ _ _ h => ⟨rfl, ρ, h⟩
  | equal =>
      refine (pop_agrees alike).bind ?_
      rintro v n w n' ⟨hn, hright, -⟩
      refine (pop_agrees hn).bind ?_
      rintro v' k w' k' ⟨hk, hleft, -⟩
      rw [same_eq alike hleft hright]
      exact push_goes hk (.bool _)
  | greater => exact binary_goes alike _ fun _ _ => .bool _
  | less => exact binary_goes alike _ fun _ _ => .bool _
  | add => exact add_goes alike
  | subtract => exact binary_goes alike _ fun _ _ => .number _
  | multiply => exact binary_goes alike _ fun _ _ => .number _
  | divide => exact binary_goes alike _ fun _ _ => .number _
  | not =>
      refine (pop_agrees alike).bind ?_
      rintro v n w n' ⟨hn, hvalue, -⟩
      rw [isFalsey_eq hvalue]
      exact push_goes hn (.bool _)
  | negate => exact negate_goes alike
  | print => exact print_goes alike
  | jump => exact jump_goes alike _
  | jumpIfFalse =>
      refine (peek_finds alike 0).bind fun v w hvalue => ?_
      rw [isFalsey_eq hvalue]
      split
      · exact jump_goes alike _
      · exact .ok ⟨rfl, ρ, alike⟩
  | loop => exact jumpBack_goes alike _
  | call => exact (callValue_agrees alike _).imp fun _ _ _ _ h => ⟨rfl, ρ, h⟩
  | closure => exact makeClosure_goes alike _
  | closeUpvalue => exact closeTop_goes alike
  | giveBack => exact .ok ⟨rfl, ρ, alike⟩

/-! ### Steps -/

/-- Ending the innermost calls. -/
theorem giveBack_agrees (alike : m.Alike ρ m') : Agrees Goes (giveBack m) (giveBack m') := by
  unfold giveBack
  refine (pop_agrees alike).bind ?_
  rintro v n w n' ⟨hn, hvalue, -⟩
  rw [bind_of_ok (get_apply n), bind_of_ok (get_apply n')]
  have hframes := hn.frames
  cases hf : n.frames with
  | nil =>
      rw [hf] at hframes
      rw [List.forall₂_nil_left_iff.mp hframes]
      exact .ok ⟨rfl, ρ, hn⟩
  | cons fr outer =>
      rw [hf] at hframes
      obtain ⟨fr', outer', hframe, houter, heq⟩ := List.forall₂_cons_left_iff.mp hframes
      rw [heq]
      simp only
      rw [bind_of_ok (modify_apply _ n), bind_of_ok (modify_apply _ n'), hframe.slots]
      have hleft : ({ n with frames := outer } : Machine).Alike ρ { n' with frames := outer' } :=
        { hn with
          frames := houter
          entered := fun f hmem => hn.entered f (by simp [hf, hmem]) }
      refine (closeFrom_agrees hleft fr.slots).bind ?_
      rintro _ k _ k' ⟨hk, -⟩
      rw [truncate, bind_of_ok (modify_apply _ k), bind_of_ok (modify_apply _ k')]
      have hlast := hk.truncate fr.slots
      have hempty : outer'.isEmpty = outer.isEmpty := by
        cases houter <;> rfl
      rw [hempty]
      split
      · exact .ok ⟨rfl, ρ, hlast⟩
      · refine (push_agrees hlast hvalue).bind ?_
        rintro _ q _ q' ⟨hq, -⟩
        exact .ok ⟨rfl, ρ, hq⟩

/-- One step of machines that are alike. -/
theorem step_agrees (alike : m.Alike ρ m') : Agrees Goes (step m) (step m') := by
  refine (fetch_agrees alike).bind ?_
  rintro _ n ⟨op, operand⟩ n' ⟨rfl, hn⟩
  by_cases hop : op = .giveBack
  · simp only [if_pos hop]
    exact giveBack_agrees hn
  · simp only [if_neg hop]
    refine (execute_agrees hn op operand).bind ?_
    rintro _ k _ k' ⟨-, ρ', hk⟩
    exact .ok ⟨rfl, ρ', hk⟩

/-- Any number of steps of machines that are alike. -/
theorem run_agrees (alike : m.Alike ρ m') (budget : Nat) :
    Agrees Goes (run budget m) (run budget m') := by
  induction budget generalizing m m' ρ with
  | zero => exact .ok ⟨rfl, ρ, alike⟩
  | succ budget ih =>
      refine (step_agrees alike).bind ?_
      rintro _ n status n' ⟨rfl, ρ', hn⟩
      cases status with
      | running => exact ih hn
      | halted => exact .ok ⟨rfl, ρ', hn⟩

end Machine

end Lox
