import Lox.Proofs.Reference.Echo

/-!
# Instructions and their echoes

Each instruction of the machine has its counterpart on the reference machine. They answer alike as
long as a value leaves the stack only when no open cell stands for its slot, and a closure captures
only locals that are there.

## Main definitions

* `Reference.Offers` — captured variables that the code describes.

## Main results

* `frame_sees`, `fetch_echoes` — reading code.
* `readCell_sees`, `writeCell_tracks` — captured variables.
* `callValue_tracks`, `makeClosure_tracks`, `giveBack_tracks` — calls and closures.
-/

namespace Lox

namespace Machine

variable {m n : Machine} {r s : Reference} {π : Picture} {α β : Type} {g h : Handle}
  {v w : Value} {d e : Datum} {fr : Frame} {a : Reference.Activation}

/-! ### Reading code -/

/-- The innermost calls. -/
theorem frame_sees (mirrors : Mirrors π m r) :
    Sees m r (fun fr a => Enacts m.heap π fr a ∧ ∃ outer, m.frames = fr :: outer) frame
      Reference.activation := by
  unfold Sees frame Reference.activation
  rw [bind_of_ok (get_apply m), bind_of_ok (get_apply r)]
  refine demand_sees fun fr hfr => ?_
  have hall := mirrors.frames
  cases hframes : m.frames with
  | nil =>
      rw [hframes] at hfr
      cases hfr
  | cons first outer =>
      rw [hframes] at hfr hall
      obtain rfl := Option.some.inj hfr
      obtain ⟨a, calls, hframe, -, hcalls⟩ := List.forall₂_cons_left_iff.mp hall
      exact ⟨a, by rw [hcalls]; rfl, hframe, outer, rfl⟩

/-- Moving the innermost calls to the same offset. -/
theorem Mirroring.setIp (mirrors : Mirrors π m r) (ip : Nat) :
    ∃ n s, Machine.setIp ip m = .ok () n ∧ Reference.setIp ip r = .ok () s ∧ Mirrors π n s ∧
      n = { m with frames := n.frames } ∧
      ∀ fr outer, m.frames = fr :: outer → n.frames = { fr with ip } :: outer := by
  have hall := mirrors.frames
  unfold Machine.setIp Reference.setIp
  rw [modify_apply, modify_apply]
  cases hframes : m.frames with
  | nil =>
      rw [hframes] at hall
      rw [List.forall₂_nil_left_iff.mp hall]
      exact ⟨_, _, rfl, rfl, mirrors, rfl, by simp⟩
  | cons fr outer =>
      rw [hframes] at hall
      obtain ⟨a, calls, hframe, houter, hcalls⟩ := List.forall₂_cons_left_iff.mp hall
      rw [hcalls]
      refine ⟨_, _, rfl, rfl, { mirrors with frames := ?_ }, rfl, ?_⟩
      · exact .cons { hframe with ip := rfl } houter
      · rintro _ _ ⟨⟩
        rfl

/-- Moving the innermost calls as the end of an instruction. -/
theorem setIp_tracks (mirrors : Mirrors π m r) (ip : Nat) :
    Echoes Tracks (setIp ip m) (Reference.setIp ip r) := by
  obtain ⟨n, s, hrun, hrun', hnext, -⟩ := mirrors.setIp ip
  rw [hrun, hrun']
  exact .ok ⟨rfl, π, hnext⟩

/-- The code of the innermost calls. What its constants refer to is reached. -/
theorem chunk_sees (mirrors : Mirrors π m r) :
    Sees m r (fun c k => k.template.code = c.code.toList ∧
      m.heap.HoldsAll c.constants k.constants ∧
      ∀ g, .object g ∈ c.constants.toList → m.heap.Reaches m.rooted g) chunk Reference.current := by
  unfold Sees chunk Reference.current
  refine (frame_sees mirrors).bind fun fr a hframe => ?_
  obtain ⟨hframe, outer, hframes⟩ := hframe
  rw [bind_of_ok (get_apply r)]
  cases hf : m.heap.function fr.function with
  | error f =>
      rw [bind_of_error (show ask _ m = .error (.fault f) m by rw [ask, hf])]
      exact .fault
  | ok f =>
      obtain ⟨k, name, hk, htemplate, -, hall⟩ := mirrors.function hframe hf
      obtain ⟨c, hc, heq⟩ := hframe.entered
      rw [bind_of_ok (ask_of_ok hf), hk]
      refine sees_pure ⟨by rw [htemplate]; rfl, hall, fun g hg => ?_⟩
      have hroot : fr.closure ∈ m.rooted :=
        mem_rooted.mpr (.inr (.inl ⟨fr, by simp [hframes], rfl⟩))
      have hreach : m.heap.Reaches m.rooted fr.function :=
        (Heap.Reaches.root hroot).child hc (by simp [Object.children, heq])
      exact hreach.child (Heap.function_eq_ok_iff.mp hf)
        (by simp [Object.children, Array.mem_toList_iff.mp hg])

/-- A constant of the innermost calls. -/
theorem constant_sees (mirrors : Mirrors π m r) (index : Nat) :
    Sees m r (fun v k => m.heap.Holds v k ∧ ∀ g, v = .object g → m.heap.Reaches m.rooted g)
      (constant index) (Reference.constant index) := by
  unfold Sees constant Reference.constant
  refine (chunk_sees mirrors).bind fun c k hk => demand_sees fun v hv => ?_
  obtain ⟨-, hall, hreach⟩ := hk
  have hrel := forall₂_getElem? hall index
  rw [Array.getElem?_toList, hv] at hrel
  generalize hk : k.constants[index]? = o at hrel
  cases hrel with
  | some hholds =>
      refine ⟨_, rfl, hholds, ?_⟩
      rintro g rfl
      exact hreach g (Array.mem_toList_iff.mpr (Array.mem_of_getElem? hv))

/-- Reading the same byte. -/
theorem readByte_echoes (mirrors : Mirrors π m r) :
    Echoes (fun a n b s => b = a ∧ Mirrors π n s ∧ n.stack = m.stack) (readByte m)
      (Reference.readByte r) := by
  unfold readByte Reference.readByte
  refine (frame_sees mirrors).bind fun fr a hframe => ?_
  refine (chunk_sees mirrors).bind fun c k hk => ?_
  rw [hk.1, hframe.1.ip]
  refine Sees.bind (R := fun a b => b = a) (demand_sees fun byte hbyte => ⟨byte, ?_, rfl⟩) ?_
  · rw [← hbyte, Array.getElem?_toList]
  rintro _ byte rfl
  obtain ⟨n, s, hrun, hrun', hnext, heq, -⟩ := mirrors.setIp (fr.ip + 1)
  rw [bind_of_ok hrun, bind_of_ok hrun']
  exact .ok ⟨rfl, hnext, by rw [heq]⟩

/-- Fetching the same instruction. -/
theorem fetch_echoes (mirrors : Mirrors π m r) :
    Echoes (fun a n b s => b = a ∧ Mirrors π n s) (fetch m) (Reference.fetch r) := by
  unfold fetch Reference.fetch
  refine (frame_sees mirrors).bind fun fr a hframe => ?_
  refine (chunk_sees mirrors).bind fun c k hk => ?_
  rw [hk.1, hframe.1.ip]
  refine Sees.bind (R := fun a b => b = a) (demand_sees fun byte hbyte => ⟨byte, ?_, rfl⟩) ?_
  · rw [← hbyte, Array.getElem?_toList]
  rintro _ byte rfl
  cases OpCode.ofByte? byte with
  | none =>
      obtain ⟨n, s, hrun, -, hnext, -⟩ := mirrors.setIp (fr.ip + 1)
      show Echoes _ ((setIp (fr.ip + 1) >>= fun _ => raise (.unknownOpCode byte)) m) _
      rw [bind_of_ok hrun]
      exact raise_broken hnext rfl
  | some op =>
      have hoperand : ∀ operand, operandAt? c op (fr.ip + 1) = some operand →
          Reference.operandAt? c.code.toList op (fr.ip + 1) = some operand := fun _ h => h
      refine Sees.bind (R := fun a b => b = a) (x := demand (operandAt? c op (fr.ip + 1)))
        (demand_sees fun operand h => ⟨operand, hoperand operand h, rfl⟩) ?_
      rintro _ operand rfl
      obtain ⟨n, s, hrun, hrun', hnext, -⟩ := mirrors.setIp (fr.ip + 1 + op.width)
      rw [bind_of_ok hrun, bind_of_ok hrun']
      exact .ok ⟨rfl, hnext⟩

/-! ### Variables -/

/-- A constant that does not name a global. -/
theorem nameExpected_echoes (mirrors : Mirrors π m r) {α β : Type}
    {R : α → Machine → β → Reference → Prop} {other : EStateM.Result Interruption Reference β} :
    Echoes R ((do raise (.nameExpected (← ask (·.heap.display v))) : Action α) m) other := by
  cases hv : m.heap.display v with
  | error f =>
      rw [bind_of_error (show ask _ m = .error (.fault f) m by rw [ask, hv])]
      exact .fault
  | ok text =>
      rw [bind_of_ok (ask_of_ok hv)]
      exact raise_broken mirrors rfl

/-- A constant that names a global. -/
theorem nameConstant_sees (mirrors : Mirrors π m r) (index : Nat) :
    Sees m r (fun g name => m.heap.object? g = some (.string name)) (nameConstant index)
      (Reference.nameConstant index) := by
  unfold Sees nameConstant Reference.nameConstant
  refine (constant_sees mirrors index).bind fun v k hv => ?_
  obtain ⟨hholds, -⟩ := hv
  cases hholds with
  | number => exact nameExpected_echoes mirrors
  | @text g name hs =>
      have hstring : m.heap.isString (.object g) = .ok true := by
        simp [Heap.isString, Heap.kind_of_object? hs, bind, Except.bind, pure, Except.pure,
          Object.kind]
      show Echoes _ ((ask (·.heap.isString (.object g)) >>= _) m) _
      rw [bind_of_ok (ask_of_ok hstring)]
      exact sees_pure hs
  | @function g f name constants hf =>
      have hstring : m.heap.isString (.object g) = .ok false := by
        simp [Heap.isString, Heap.kind_of_object? hf, bind, Except.bind, pure, Except.pure,
          Object.kind]
      show Echoes _ ((ask (·.heap.isString (.object g)) >>= _) m) _
      rw [bind_of_ok (ask_of_ok hstring)]
      exact nameExpected_echoes mirrors

/-- The globals of a name. -/
theorem Mirroring.global (mirrors : Mirrors π m r) {name : String}
    (hname : m.heap.object? g = some (.string name)) :
    Option.Rel (Denotes m.heap π) m.globals[g]? (r.globals name) := by
  cases hv : m.globals[g]? with
  | some v =>
      obtain ⟨other, d, hother, hd, hdenotes⟩ := mirrors.globals_right g v hv
      rw [hname] at hother
      cases hother
      rw [hd]
      exact .some hdenotes
  | none =>
      cases hd : r.globals name with
      | none => exact .none
      | some d =>
          obtain ⟨h, v, hother, hv', -⟩ := mirrors.globals_left name d hd
          obtain rfl := mirrors.valid.distinct _ _ _ hname hother
          rw [hv] at hv'
          cases hv'

/-- An undefined variable. -/
theorem undefined_echoes (mirrors : Mirrors π m r) {name : String}
    (hname : m.heap.object? g = some (.string name)) {α β : Type}
    {R : α → Machine → β → Reference → Prop} :
    Echoes R ((do raise (.undefinedVariable (← ask (·.heap.string g))) : Action α) m)
      (Reference.raise (.undefinedVariable name) r) := by
  rw [bind_of_ok (ask_of_ok (Heap.string_eq_ok_iff.mpr hname))]
  exact raise_echoes mirrors _

/-- Reading a global. -/
theorem readGlobal_sees (mirrors : Mirrors π m r) {name : String}
    (hname : m.heap.object? g = some (.string name)) :
    Sees m r (Denotes m.heap π) (readGlobal g) (Reference.readGlobal name) := by
  have hrel := mirrors.global hname
  unfold Sees readGlobal Reference.readGlobal
  rw [bind_of_ok (get_apply m), bind_of_ok (get_apply r)]
  generalize m.globals[g]? = o at hrel ⊢
  generalize r.globals name = o' at hrel ⊢
  cases hrel with
  | none => exact undefined_echoes mirrors hname
  | some hdenotes => exact sees_pure hdenotes

/-- Assigning a global. -/
theorem assignGlobal_tracks (mirrors : Mirrors π m r) {name : String}
    (hname : m.heap.object? g = some (.string name)) :
    Echoes Tracks (assignGlobal g m) (Reference.assignGlobal name r) := by
  have hrel := mirrors.global hname
  have hcontains : (r.globals name).isSome = m.globals.contains g := by
    rw [Std.TreeMap.contains_eq_isSome_getElem?]
    generalize m.globals[g]? = o at hrel ⊢
    generalize r.globals name = o' at hrel ⊢
    cases hrel <;> rfl
  unfold assignGlobal Reference.assignGlobal
  rw [bind_of_ok (get_apply m), bind_of_ok (get_apply r), hcontains]
  split
  · refine (peek_sees mirrors 0).bind fun v d hdenotes => ?_
    exact .ok ⟨rfl, π, mirrors.setGlobal hname hdenotes⟩
  · exact undefined_echoes mirrors hname

/-- The locations of stack slots and what they hold. -/
theorem read_location {i ℓ : Nat} {d : Datum} (hslot : r.stack[i]? = some ℓ)
    (hd : r.store[ℓ]? = some d) :
    Reference.location i r = .ok ℓ r ∧ Reference.read ℓ r = .ok d r := by
  constructor
  · rw [Reference.location, bind_of_ok (get_apply r), hslot]
    rfl
  · rw [Reference.read, bind_of_ok (get_apply r), hd]
    rfl

/-- Looking at a slot. -/
theorem slotValue_echoes {S : α → Machine → β → Reference → Prop} {f : Value → Action α}
    {k : Datum → Reference.Act β} (mirrors : Mirrors π m r) (slot : Nat)
    (rest : ∀ v d, Denotes m.heap π v d → Echoes S (f v m) (k d r)) :
    Echoes S ((slotValue slot >>= f) m)
      ((Reference.location slot >>= fun ℓ => Reference.read ℓ >>= k) r) := by
  have hrel := mirrors.slot slot
  cases hv : m.stack[slot]? with
  | none =>
      have hrun : slotValue slot m = .error (.fault .outOfRange) m := by
        rw [slotValue, bind_of_ok (get_apply m), hv]
        rfl
      rw [bind_of_error hrun]
      exact .fault
  | some v =>
      have hrun : slotValue slot m = .ok v m := by
        rw [slotValue, bind_of_ok (get_apply m), hv]
        rfl
      rw [hv] at hrel
      generalize hℓ : r.stack[slot]? = o at hrel
      cases hrel with
      | @some _ ℓ h =>
          obtain ⟨d, hd, hdenotes⟩ := h
          obtain ⟨hlocation, hread⟩ := read_location hℓ hd
          rw [bind_of_ok hrun, bind_of_ok hlocation, bind_of_ok hread]
          exact rest v d hdenotes

/-- Setting a slot. -/
theorem setSlot_tracks (mirrors : Mirrors π m r) {slot ℓ : Nat} (hslot : r.stack[slot]? = some ℓ)
    (denotes : Denotes m.heap π v d) :
    Echoes Tracks (setSlot slot v m) (Reference.write ℓ d r) := by
  rw [setSlot, bind_of_ok (get_apply m), Reference.write, modify_apply]
  split
  · refine .ok ⟨rfl, π, ?_⟩
    unfold Mirrors
    rw [Array.size_setIfInBounds]
    exact mirrors.setSlot hslot denotes
  · exact stop_echoes

/-- Assigning a local. -/
theorem setLocal_tracks (mirrors : Mirrors π m r) (slot : Nat) (denotes : Denotes m.heap π v d) :
    Echoes Tracks (setSlot slot v m)
      ((do Reference.write (← Reference.location slot) d : Reference.Act Unit) r) := by
  by_cases inside : slot < r.stack.size
  · have hslot := Array.getElem?_eq_getElem inside
    obtain ⟨_, _, -, hd, -⟩ := mirrors.stored hslot
    rw [bind_of_ok (read_location hslot hd).1]
    exact setSlot_tracks mirrors hslot denotes
  · rw [setSlot, bind_of_ok (get_apply m), if_neg (by rwa [← mirrors.size])]
    exact stop_echoes

/-- A cell that the innermost calls have captured, and its location. -/
theorem capturedCell_sees (mirrors : Mirrors π m r) (index : Nat) :
    Sees m r π.cell (capturedCell index) (Reference.captured index) := by
  unfold Sees capturedCell Reference.captured Reference.current
  simp only [bind_assoc]
  refine (frame_sees mirrors).bind fun fr a hframe => ?_
  rw [bind_of_ok (get_apply r)]
  refine Sees.bind (R := fun c k => List.Forall₂ π.cell c.cells.toList
    (Reference.Closure.captured k).toList) (ask_sees fun c hc => ?_)
    fun c k hcells => demand_sees fun g hg => ?_
  · obtain ⟨k, hk, -, hcells⟩ := mirrors.closure hframe.1.callee (Heap.closure_eq_ok_iff.mp hc)
    exact ⟨k, hk, hcells⟩
  · have hrel := forall₂_getElem? hcells index
    rw [Array.getElem?_toList, Array.getElem?_toList, hg] at hrel
    generalize hk : k.captured[index]? = o at hrel
    cases hrel with
    | some hcell => exact ⟨_, rfl, hcell⟩

/-- Reading a cell and its location. -/
theorem readCell_sees (mirrors : Mirrors π m r) {ℓ : Nat} (cell : π.cell g ℓ) :
    Sees m r (Denotes m.heap π) (readCell g) (Reference.read ℓ) := by
  unfold Sees readCell
  cases mirrors.cells g ℓ cell with
  | opened ho hslot =>
      rename_i slot hmem
      obtain ⟨v, d, hv, hd, hdenotes⟩ := mirrors.stored hslot
      rw [bind_of_ok (ask_of_ok (Heap.cell_eq_ok_iff.mpr ho)), (read_location hslot hd).2]
      show Echoes _ (slotValue slot m) _
      rw [slotValue, bind_of_ok (get_apply m), hv]
      exact sees_pure (m := m) (r := r) hdenotes
  | closed ho hd hdenotes =>
      rw [bind_of_ok (ask_of_ok (Heap.cell_eq_ok_iff.mpr ho)), Reference.read,
        bind_of_ok (get_apply r), hd]
      exact sees_pure hdenotes

/-- Assigning a cell and its location. -/
theorem writeCell_tracks (mirrors : Mirrors π m r) {ℓ : Nat} (cell : π.cell g ℓ)
    (denotes : Denotes m.heap π v d) :
    Echoes Tracks (writeCell g v m) (Reference.write ℓ d r) := by
  unfold writeCell
  have hlodged := mirrors.cells g ℓ cell
  cases hlodged with
  | opened ho hslot =>
      rw [bind_of_ok (ask_of_ok (Heap.cell_eq_ok_iff.mpr ho))]
      exact setSlot_tracks mirrors hslot denotes
  | closed ho =>
      rw [bind_of_ok (ask_of_ok (Heap.cell_eq_ok_iff.mpr ho))]
      show Echoes _ (onHeap (Heap.setCell g (.closed v)) m) _
      simp only [onHeap, Heap.setCell, Heap.cell_eq_ok_iff.mpr ho]
      exact .ok ⟨rfl, π, mirrors.writeClosed cell ho denotes⟩

/-! ### Operators -/

/-- A callable is no string. -/
theorem Mirroring.callable_ne (mirrors : Mirrors π m r) {id : Nat} {s : String}
    (callable : π.callable h id) : m.heap.object? h ≠ some (.string s) := by
  obtain ⟨o, k, ho, -, hembodies⟩ := mirrors.callables h id callable
  rw [ho]
  cases hembodies <;> rintro ⟨⟩

/-- A handle stands for one datum, and a datum for one handle. -/
theorem Mirroring.object_eq_iff (mirrors : Mirrors π m r) (left : Denotes m.heap π (.object g) d)
    (right : Denotes m.heap π (.object h) e) : g = h ↔ d = e := by
  cases left with
  | text hs =>
      cases right with
      | text ht =>
          constructor
          · rintro rfl
            rw [hs] at ht
            cases ht
            rfl
          · rintro ⟨⟩
            exact mirrors.valid.distinct _ _ _ hs ht
      | callable hc =>
          refine ⟨?_, by rintro ⟨⟩⟩
          rintro rfl
          exact absurd hs (mirrors.callable_ne hc)
  | callable hc =>
      cases right with
      | text ht =>
          refine ⟨?_, by rintro ⟨⟩⟩
          rintro rfl
          exact absurd ht (mirrors.callable_ne hc)
      | callable hc' =>
          constructor
          · rintro rfl
            rw [mirrors.oneToOne.callable_right _ _ _ hc hc']
          · rintro ⟨⟩
            exact mirrors.oneToOne.callable_left _ _ _ hc hc'

/-- Values are the same when the data that they denote are. -/
theorem Mirroring.same (mirrors : Mirrors π m r) (left : Denotes m.heap π v d)
    (right : Denotes m.heap π w e) : d.same e = v.same w := by
  cases v with
  | object g =>
      cases w with
      | object h =>
          rw [Bool.eq_iff_iff, left.same_iff, eq_comm, ← mirrors.object_eq_iff left right]
          simp [Value.same]
      | nil | bool | number =>
          cases right
          cases left <;> rfl
  | nil | bool | number =>
      cases left
      cases right <;> rfl

/-- Two values are replaced by one. -/
theorem popTwo_tracks (mirrors : Mirrors π m r) (spare : m.Spare 2)
    (denotes : Denotes m.heap π v d) :
    Echoes Tracks ((do let _ ← pop; let _ ← pop; push v : Action Unit) m)
      ((do let _ ← Reference.pop; let _ ← Reference.pop; Reference.push d :
        Reference.Act Unit) r) := by
  refine (pop_echoes mirrors spare).bind ?_
  rintro _ n _ s ⟨-, rfl, -, hn, hspare⟩
  refine (pop_echoes hn hspare).bind ?_
  rintro _ k _ t ⟨-, rfl, -, hk, -⟩
  exact push_tracks hk denotes

/-- An operator of numbers. -/
theorem binary_tracks (mirrors : Mirrors π m r) (spare : m.Spare 2)
    {operation : Float → Float → Value} {operation' : Float → Float → Datum}
    (plain : ∀ x y, Denotes m.heap π (operation x y) (operation' x y)) :
    Echoes Tracks (binary operation m) (Reference.binary operation' r) := by
  unfold binary Reference.binary
  refine (peek_sees mirrors 1).bind fun v d hleft => ?_
  refine (peek_sees mirrors 0).bind fun w e hright => ?_
  cases hleft with
  | number x =>
      cases hright with
      | number y => exact popTwo_tracks mirrors spare (plain x y)
      | nil | bool | text | callable => exact raise_echoes mirrors _
  | nil | bool | text | callable => exact raise_echoes mirrors _

/-- Everything that the machine keeps alive is there. -/
theorem Mirroring.live (mirrors : Mirrors π m r) : ∀ h ∈ m.rooted, m.heap.Live h := by
  intro h hh
  rcases mem_rooted.mp hh with hmem | ⟨fr, hfr, rfl⟩ | ⟨e, he, rfl⟩ | ⟨g, v, hv, hg⟩
  · obtain ⟨ℓ, -, d, -, hdenotes⟩ := exists_of_forall₂ mirrors.stack.flip hmem
    exact mirrors.live_of_denotes hdenotes rfl
  · obtain ⟨a, -, hframe⟩ := exists_of_forall₂ mirrors.frames.flip hfr
    obtain ⟨c, hc, -⟩ := hframe.entered
    exact ⟨_, hc⟩
  · exact ⟨_, (mirrors.opened e he).1⟩
  · obtain ⟨name, d, hname, -, hdenotes⟩ := mirrors.globals_right g v hv
    rcases hg with rfl | hg
    · exact ⟨_, hname⟩
    · exact mirrors.live_of_denotes hdenotes hg

/-- An action that follows an operation of the heap that keeps the roots. -/
theorem withRoots_echoes {S : β → Machine → γ → Reference → Prop}
    {other : EStateM.Result Interruption Reference γ} {operation : List Handle → HeapM α}
    {f : α → Action β} (mirrors : Mirrors π m r)
    (rest : ∀ a mid, operation m.rooted m.heap = .ok a mid →
      (m.heap.Keeps m.rooted mid → mid.Valid →
        Mirrors (π.reached m.heap m.rooted) { m with heap := mid } r) →
          Echoes S (f a { m with heap := mid }) other) :
    Echoes S ((withRoots operation >>= f) m) other := by
  cases hrun : operation m.rooted m.heap with
  | error e mid =>
      have herror : withRoots operation m = .error (.fault e) { m with heap := mid } := by
        simp only [withRoots]
        rw [show operation (roots m.stack m.frames m.openCells m.globals) m.heap = _ from hrun]
      rw [bind_of_error herror]
      exact .fault
  | ok a mid =>
      have hok : withRoots operation m = .ok a { m with heap := mid } := by
        simp only [withRoots]
        rw [show operation (roots m.stack m.frames m.openCells m.globals) m.heap = _ from hrun]
      rw [bind_of_ok hok]
      refine rest a mid hrun fun hkeeps hvalid => ?_
      refine mirrors.move hkeeps hvalid fun e he => ?_
      exact mem_rooted.mpr (.inr (.inr (.inl ⟨e, he, rfl⟩)))

/-- Whether a value is a string. -/
theorem isString_of_denotes (mirrors : Mirrors π m r) (denotes : Denotes m.heap π (.object g) d) :
    ∃ b, m.heap.isString (.object g) = .ok b ∧ (b = true ↔ ∃ s, d = .text s) := by
  cases denotes with
  | text hs =>
      refine ⟨true, ?_, by simp⟩
      simp [Heap.isString, Heap.kind_of_object? hs, bind, Except.bind, pure, Except.pure,
        Object.kind]
  | callable hc =>
      obtain ⟨o, k, ho, -, hembodies⟩ := mirrors.callables g _ hc
      refine ⟨false, ?_, by simp⟩
      cases hembodies <;>
        simp [Heap.isString, Heap.kind_of_object? ho, bind, Except.bind, pure, Except.pure,
          Object.kind]

/-- Joining two strings. -/
theorem concat_tracks (mirrors : Mirrors π m r) (spare : m.Spare 2) {s t : String}
    (left : m.heap.object? g = some (.string s)) (right : m.heap.object? h = some (.string t)) :
    Echoes Tracks
      ((do let joined ← concat g h; let _ ← pop; let _ ← pop; push (.object joined) :
        Action Unit) m)
      ((do let _ ← Reference.pop; let _ ← Reference.pop; Reference.push (.text (s ++ t)) :
        Reference.Act Unit) r) := by
  refine withRoots_echoes mirrors fun joined mid hrun hmove => ?_
  rw [Heap.concat_eq left right] at hrun
  have hmade := Heap.internedAs_of_ok mirrors.valid.toOrderly hrun
  exact popTwo_tracks (hmove hmade.keeps (hmade.valid mirrors.valid)) spare
    (.text hmade.object?_self)

/-- Adding numbers and joining strings. -/
theorem add_tracks (mirrors : Mirrors π m r) (spare : m.Spare 2) :
    Echoes Tracks (add m) (Reference.add r) := by
  unfold add Reference.add
  refine (peek_sees mirrors 1).bind fun v d hleft => ?_
  refine (peek_sees mirrors 0).bind fun w e hright => ?_
  cases v with
  | nil | bool =>
      cases hleft
      exact raise_echoes mirrors _
  | number x =>
      cases hleft
      cases w with
      | number y =>
          cases hright
          exact popTwo_tracks mirrors spare (.number (x + y))
      | nil | bool =>
          cases hright
          exact raise_echoes mirrors _
      | object h => cases hright <;> exact raise_echoes mirrors _
  | object g =>
      cases w with
      | nil | bool | number => cases hleft <;> cases hright <;> exact raise_echoes mirrors _
      | object h =>
          obtain ⟨b, hb, hiff⟩ := isString_of_denotes mirrors hleft
          obtain ⟨b', hb', hiff'⟩ := isString_of_denotes mirrors hright
          simp only
          rw [bind_of_ok (ask_of_ok hb)]
          cases hleft with
          | callable hc =>
              obtain rfl : b = false := by simpa using hiff
              exact raise_echoes mirrors _
          | text hs =>
              obtain rfl : b = true := by simpa using hiff
              simp only [Bool.not_true, Bool.false_eq_true, if_false]
              rw [bind_of_ok (ask_of_ok hb')]
              cases hright with
              | callable hc =>
                  obtain rfl : b' = false := by simpa using hiff'
                  exact raise_echoes mirrors _
              | text ht =>
                  obtain rfl : b' = true := by simpa using hiff'
                  exact concat_tracks mirrors spare hs ht

/-- Changing the sign of a number. -/
theorem negate_tracks (mirrors : Mirrors π m r) (spare : m.Spare 1) :
    Echoes Tracks (negate m) (Reference.negate r) := by
  unfold negate Reference.negate
  refine (peek_sees mirrors 0).bind fun v d hdenotes => ?_
  cases hdenotes with
  | number x =>
      refine (pop_echoes mirrors spare).bind ?_
      rintro _ n _ s ⟨-, rfl, -, hn, -⟩
      exact push_tracks hn (.number (-x))
  | nil | bool | text | callable => exact raise_echoes mirrors _

/-! ### Calls -/

/-- Calling paired closures. -/
theorem call_tracks (mirrors : Mirrors π m r) {id : Nat} (callable : π.callable h id)
    (count : Nat) : Echoes Tracks (call h count m) (Reference.call id count r) := by
  unfold call Reference.call
  rw [bind_of_ok (get_apply r)]
  refine Sees.bind (R := fun c k => m.heap.object? h = some (.closure c) ∧
      m.heap.Holds (.object c.function) (.function (Reference.Closure.template k) k.constants))
    (ask_sees fun c hc => ?_) fun c k hck => ?_
  · have hc := Heap.closure_eq_ok_iff.mp hc
    obtain ⟨k, hk, hholds, -⟩ := mirrors.closure callable hc
    exact ⟨k, hk, hc, hholds⟩
  obtain ⟨hc, hholds⟩ := hck
  cases hf : m.heap.function c.function with
  | error f =>
      rw [bind_of_error (show ask _ m = .error (.fault f) m by rw [ask, hf])]
      exact .fault
  | ok f =>
      obtain ⟨name, htemplate, -⟩ := holds_template hholds (Heap.function_eq_ok_iff.mp hf)
      have harity : k.template.arity = f.arity := by rw [htemplate]; rfl
      rw [bind_of_ok (ask_of_ok hf), bind_of_ok (get_apply m), harity, mirrors.size,
        ← mirrors.frames.length_eq]
      split
      · exact raise_echoes mirrors _
      split
      · exact raise_echoes mirrors _
      split
      · exact stop_echoes
      refine .ok ⟨rfl, π,
        { mirrors with frames := .cons ⟨rfl, ?_, callable, c, hc, rfl⟩ mirrors.frames }⟩
      simp

/-- A host function that does not look at handles computes on data what it computes on the values
that denote them. -/
theorem Mirroring.native (mirrors : Mirrors π m r) {run : HostFunction}
    (equivariant : run.Equivariant) (reading : Float) {args : Array Value} {ds : List Datum}
    (all : List.Forall₂ (Denotes m.heap π) args.toList ds) :
    Denotes m.heap π (run reading args) (run.onData reading ds) := by
  -- each handle among the arguments is paired with its stand-in
  let given : Renaming := fun g k =>
    ∃ d ∈ ds, Denotes m.heap π (.object g) d ∧ k = ⟨ds.findIdx d.same⟩
  have hplace : ∀ {g d}, d ∈ ds → Denotes m.heap π (.object g) d →
      ds[ds.findIdx d.same]? = some d := fun {g d} hmem hdenotes => by
    have hlt : ds.findIdx d.same < ds.length :=
      List.findIdx_lt_length_of_exists ⟨d, hmem, hdenotes.same_iff.mpr rfl⟩
    rw [List.getElem?_eq_getElem hlt]
    exact congrArg some (hdenotes.same_iff.mp (List.findIdx_getElem (w := hlt)))
  have hone : given.OneToOne := by
    constructor
    · rintro g k k' ⟨d, -, hdenotes, rfl⟩ ⟨e, -, hdenotes', rfl⟩
      rw [(mirrors.object_eq_iff hdenotes hdenotes').mp rfl]
    · rintro g g' k ⟨d, hd, hdenotes, rfl⟩ ⟨e, he, hdenotes', heq⟩
      refine (mirrors.object_eq_iff hdenotes hdenotes').mpr ?_
      have hfirst := hplace hd hdenotes
      rw [Handle.mk.inj heq, hplace he hdenotes'] at hfirst
      exact (Option.some.inj hfirst).symm
  have hargs : List.Forall₂ (Value.Alike given) args.toList
      (ds.map (HostFunction.encode ds)).toArray.toList := by
    rw [List.toList_toArray, List.forall₂_map_right_iff]
    refine forall₂_mono all ?_
    rintro v - d hd (_ | _ | _ | hs | hc)
    · exact .nil
    · exact .bool _
    · exact .number _
    · exact .object ⟨_, hd, .text hs, rfl⟩
    · exact .object ⟨_, hd, .callable hc, rfl⟩
  have hresult := equivariant given hone reading _ _ hargs
  unfold HostFunction.onData
  generalize run reading args = v at hresult ⊢
  generalize run reading (ds.map (HostFunction.encode ds)).toArray = w at hresult ⊢
  cases hresult with
  | nil => exact .nil
  | bool b => exact .bool b
  | number x => exact .number x
  | object hpair =>
      obtain ⟨d, hd, hdenotes, rfl⟩ := hpair
      simpa [HostFunction.decode, List.getD_eq_getElem?_getD, hplace hd hdenotes] using hdenotes

/-- Calling a host function. -/
theorem callNative_tracks (mirrors : Mirrors π m r) {count : Nat} (spare : m.Spare (count + 1))
    {native : Native} (equivariant : native.run.Equivariant) :
    Echoes Tracks (callNative native count m) (Reference.callNative native count r) := by
  have hargs : List.Forall₂ (Denotes m.heap π)
      (m.stack.extract (m.stack.size - count)).toList (r.dataFrom (m.stack.size - count)) := by
    rw [Array.toList_extract, Reference.dataFrom, List.forall₂_map_right_iff]
    change List.Forall₂ _ ((m.stack.toList.drop _).take _) _
    rw [List.take_of_length_le (by simp)]
    refine (List.forall₂_drop _ mirrors.stack).imp ?_
    rintro v ℓ ⟨d, hd, hdenotes⟩
    simpa [Array.getD_eq_getD_getElem?, hd] using hdenotes
  have hresult : Denotes m.heap π
      (native.run (m.clock m.hostCalls) (m.stack.extract (m.stack.size - count)))
      (native.run.onData (r.clock r.hostCalls) (r.dataFrom (r.stack.size - count))) := by
    rw [mirrors.size, mirrors.clock, mirrors.hostCalls]
    exact mirrors.native equivariant _ hargs
  have hcounted : Mirrors π { m with hostCalls := m.hostCalls + 1 }
      { r with hostCalls := r.hostCalls + 1 } :=
    { mirrors with hostCalls := congrArg (· + 1) mirrors.hostCalls }
  have hcut := Mirroring.truncate hcounted (m.stack.size - count - 1) fun e he => by
    have := spare e he
    omega
  have hsize : m.stack.size - count - 1 = r.stack.size - count - 1 := by rw [mirrors.size]
  unfold callNative truncate Reference.callNative Reference.truncate
  rw [bind_of_ok (get_apply m), bind_of_ok (get_apply r), bind_of_ok (modify_apply _ _),
    bind_of_ok (modify_apply _ _), bind_of_ok (modify_apply _ _), bind_of_ok (modify_apply _ _),
    ← hsize]
  exact push_tracks hcut hresult

/-- Calling what a value denotes. -/
theorem callValue_tracks (mirrors : Mirrors π m r) {count : Nat} (spare : m.Spare (count + 1)) :
    Echoes Tracks (callValue count m) (Reference.callDatum count r) := by
  unfold callValue Reference.callDatum
  refine (peek_sees mirrors count).bind fun v d hdenotes => ?_
  cases hdenotes with
  | nil | bool | number => exact raise_echoes mirrors _
  | text hs =>
      simp only
      rw [bind_of_ok (ask_of_ok (Heap.kind_of_object? hs))]
      exact raise_echoes mirrors _
  | callable hc =>
      obtain ⟨o, k, ho, hk, hembodies⟩ := mirrors.callables _ _ hc
      simp only
      rw [bind_of_ok (ask_of_ok (Heap.kind_of_object? ho)), bind_of_ok (get_apply r), hk]
      cases hembodies with
      | closure => exact call_tracks mirrors hc count
      | native hequivariant =>
          simp only [Object.kind]
          rw [bind_of_ok (ask_of_ok (Heap.native_eq_ok_iff.mpr ho))]
          exact callNative_tracks mirrors spare hequivariant

end Machine

/-! ### Closures -/

namespace Reference

/-- The code in front of the innermost call describes captured variables. Those that are locals
lie below a given size of the stack. -/
def Offers (r : Reference) (size : Nat) (captures : List Capture) : Prop :=
  ∃ a outer k, r.calls = a :: outer ∧ r.closure? a.callee = some k ∧
    (∀ (i : Nat) b, (captures.flatMap Capture.bytes)[i]? = some b →
      k.template.code[a.ip + i]? = some b) ∧
    ∀ c ∈ captures, c.isLocal = true → a.base + c.index.toNat < size

variable {r s : Reference} {a : Activation} {outer : List Activation} {k : Closure} {byte : UInt8}

/-- The innermost call. -/
theorem activation_of (calls : r.calls = a :: outer) : activation r = .ok a r := by
  rw [activation, bind_of_ok (get_apply r), calls]
  rfl

/-- Reading a byte that is there. -/
theorem readByte_of (calls : r.calls = a :: outer) (closure : r.closure? a.callee = some k)
    (found : k.template.code[a.ip]? = some byte) :
    readByte r = .ok byte { r with calls := { a with ip := a.ip + 1 } :: outer } := by
  have hcurrent : current r = .ok k r := by
    rw [current, bind_of_ok (activation_of calls), bind_of_ok (get_apply r), closure]
    rfl
  rw [readByte, bind_of_ok (activation_of calls), bind_of_ok hcurrent, found,
    bind_of_ok (show demand (some byte) r = .ok byte r from rfl)]
  rw [setIp, bind_of_ok (modify_apply _ _), calls]
  rfl

/-- Reading how the next variable is captured. -/
theorem Offers.read {size : Nat} {c : Capture} {captures : List Capture}
    (offers : r.Offers size (c :: captures)) :
    ∃ s s' a, readByte r = .ok (if c.isLocal then 1 else 0) s ∧ readByte s = .ok c.index s' ∧
      s'.stack = r.stack ∧ s'.Offers size captures ∧ activation s' = .ok a s' ∧
      (c.isLocal = true → a.base + c.index.toNat < size) := by
  obtain ⟨a, outer, k, hcalls, hk, hbytes, hlocals⟩ := offers
  rw [List.flatMap_cons] at hbytes
  refine ⟨_, _, _, readByte_of hcalls hk (hbytes 0 _ rfl), readByte_of rfl hk (hbytes 1 _ rfl), rfl,
    ⟨_, outer, k, rfl, hk, fun i b hb => ?_, fun c hc => hlocals c (List.mem_cons_of_mem _ hc)⟩,
    activation_of rfl, hlocals c (List.mem_cons_self ..)⟩
  rw [show a.ip + 1 + 1 + i = a.ip + (2 + i) by omega]
  refine hbytes (2 + i) b ?_
  rw [List.getElem?_append_right (by simp [Capture.bytes])]
  simpa [Capture.bytes] using hb

/-- A closure that has captured a location is still the same function. -/
theorem Offers.capture {id size : Nat} {captures : List Capture} {k' : Closure} (location : Nat)
    (offers : r.Offers size captures) (known : r.closure? id = some k') :
    Offers { r with callables :=
      r.callables.setIfInBounds id (.closure { k' with captured := k'.captured.push location }) }
        size captures := by
  obtain ⟨a, outer, k, hcalls, hk, hbytes, hlocals⟩ := offers
  by_cases hself : id = a.callee
  · obtain rfl := Option.some.inj (hk.symm.trans (hself ▸ known))
    have hlt : a.callee < r.callables.size := by
      unfold closure? at hk
      split at hk
      · rename_i c hc
        exact (Array.getElem?_eq_some_iff.mp hc).1
      · cases hk
    refine ⟨a, outer, { k with captured := k.captured.push location }, hcalls, ?_, hbytes, hlocals⟩
    simp [closure?, hself, hlt]
  · refine ⟨a, outer, k, hcalls, ?_, hbytes, hlocals⟩
    rw [← hk]
    simp only [closure?]
    rw [Array.getElem?_setIfInBounds_ne hself]

/-- The code still describes the same captured variables when there are more closures. -/
theorem Offers.later {size : Nat} {captures : List Capture} (offers : r.Offers size captures)
    (calls : s.calls = r.calls)
    (closures : ∀ id k, r.closure? id = some k → s.closure? id = some k) :
    s.Offers size captures := by
  obtain ⟨a, outer, k, hcalls, hk, hrest⟩ := offers
  exact ⟨a, outer, k, calls.trans hcalls, closures _ _ hk, hrest⟩

end Reference

namespace Machine

variable {m n : Machine} {r s : Reference} {π : Picture} {g h : Handle} {v w : Value} {d e : Datum}

/-- The open cell of a slot stands for the location of the slot. -/
theorem openCell_echoes (mirrors : Mirrors π m r) {slot ℓ : Nat} (hslot : r.stack[slot]? = some ℓ) :
    Echoes (fun cell n i s => s = r ∧ ∃ π', Mirrors π' n r ∧ π'.cell cell i ∧ n.stack = m.stack ∧
        ∀ h id, π.callable h id → h ∈ m.rooted → π'.callable h id)
      (openCell slot m) (Reference.location slot r) := by
  have hlocation : Reference.location slot r = .ok ℓ r := by
    rw [Reference.location, bind_of_ok (get_apply r), hslot]
    rfl
  rw [hlocation, openCell, bind_of_ok (get_apply m)]
  cases hfind : m.openCells.find? slot with
  | some cell =>
      obtain ⟨e, he, rfl⟩ := Option.map_eq_some_iff.mp hfind
      obtain ⟨-, i, hi, hcell⟩ := mirrors.opened e (List.mem_of_find?_eq_some he)
      obtain rfl : e.1 = slot := by simpa using List.find?_some he
      obtain rfl := Option.some.inj (hslot.symm.trans hi)
      exact .ok ⟨rfl, π, mirrors, hcell, rfl, fun _ _ h _ => h⟩
  | none =>
      have habsent : ∀ e ∈ m.openCells.entries, e.1 ≠ slot := fun e he heq => by
        have := List.find?_eq_none.mp (Option.map_eq_none_iff.mp hfind) e he
        simp [heq] at this
      refine withRoots_echoes mirrors fun cell mid hrun hmove => ?_
      have hmade := Heap.allocated_of_ok mirrors.valid.toOrderly hrun
      have hmoved := hmove hmade.keeps
        (hmade.valid mirrors.valid (fun _ h => by cases h) mirrors.live (by simp [Object.children]))
      rw [bind_of_ok (modify_apply _ _)]
      have hadded := hmoved.addCell hmade.object?_self hslot (fun i hi => ?_) habsent
      · refine .ok ⟨rfl, (π.reached m.heap m.rooted).addCell cell ℓ,
          { hadded with }, .inr ⟨rfl, rfl⟩,
          rfl, fun h id hid hroot => ⟨hid, .root hroot⟩⟩
      · have hlive : m.heap.Live cell := by
          cases mirrors.cells cell i hi.1 with
          | opened ho => exact ⟨_, ho⟩
          | closed ho => exact ⟨_, ho⟩
        exact hmade.fresh hlive hi.2 rfl

/-- A closure captures a cell, and its counterpart the location of the cell. -/
theorem capture_echoes (mirrors : Mirrors π m r) {id ℓ : Nat} {cell : Handle}
    (callable : π.callable h id) (hcell : π.cell cell ℓ) :
    Echoes (fun _ n _ s => Mirrors π n s ∧ n.stack = m.stack ∧ ∃ k, r.closure? id = some k ∧
        s = { r with callables :=
          r.callables.setIfInBounds id (.closure { k with captured := k.captured.push ℓ }) })
      (onHeap (Heap.capture h cell) m) (Reference.capture id ℓ r) := by
  simp only [onHeap, Heap.capture]
  cases hc : m.heap.closure h with
  | error f => exact .fault
  | ok c =>
      have hc := Heap.closure_eq_ok_iff.mp hc
      obtain ⟨k, hk, -⟩ := mirrors.closure callable hc
      have hcallable : r.callables[id]? = some (.closure k) := by
        rw [Reference.closure?] at hk
        split at hk
        · rename_i c' hc'
          rw [hc', Option.some.inj hk]
        · cases hk
      rw [Reference.capture, bind_of_ok (get_apply r), hk,
        bind_of_ok (show Reference.demand (some k) r = .ok k r from rfl), modify_apply]
      exact .ok ⟨mirrors.capture callable hc hcallable hcell, rfl, k, rfl, rfl⟩

/-- Capturing the next variable that the code describes. -/
theorem captureNext_echoes (mirrors : Mirrors π m r) {id size : Nat} {c : Capture}
    {captures : List Capture} (callable : π.callable h id) (onStack : .object h ∈ m.stack.toList)
    (within : size ≤ r.stack.size) (offers : r.Offers size (c :: captures)) :
    Echoes (fun _ n _ s => ∃ π', Mirrors π' n s ∧ π'.callable h id ∧ .object h ∈ n.stack.toList ∧
        s.stack = r.stack ∧ s.Offers size captures)
      (captureNext h m) (Reference.captureNext id r) := by
  obtain ⟨s, t, a, hfirst, hsecond, hstack, hoffers, hactivation, hlocal⟩ := offers.read
  have hread := readByte_echoes mirrors
  rw [hfirst] at hread
  rw [captureNext, Reference.captureNext, bind_of_ok hfirst, bind_of_ok hsecond]
  refine hread.bind_left ?_
  rintro _ n ⟨rfl, hn, hstack₁⟩
  have hread := readByte_echoes hn
  rw [hsecond] at hread
  refine hread.bind_left ?_
  rintro _ q ⟨rfl, hq, hstack₂⟩
  have honStack : .object h ∈ q.stack.toList := by rwa [hstack₂, hstack₁]
  have hcapture : ∀ {p : Machine} {π' : Picture} {cell : Handle} {ℓ : Nat}, Mirrors π' p t →
      π'.cell cell ℓ → p.stack = q.stack → π'.callable h id →
      Echoes (fun _ n _ s => ∃ π', Mirrors π' n s ∧ π'.callable h id ∧
          .object h ∈ n.stack.toList ∧ s.stack = r.stack ∧ s.Offers size captures)
        (onHeap (Heap.capture h cell) p) (Reference.capture id ℓ t) := by
    intro p π' cell ℓ hp hcell hsame hid
    refine (capture_echoes hp hid hcell).imp ?_
    rintro _ u _ s ⟨hu, hsame', k, hk, rfl⟩
    exact ⟨π', hu, hid, by rwa [hsame', hsame], hstack, hoffers.capture ℓ hk⟩
  dsimp only
  cases hkind : c.isLocal with
  | true =>
      have hslot := Array.getElem?_eq_getElem
        (Nat.lt_of_lt_of_le (hlocal hkind) (hstack.symm ▸ within))
      rw [if_pos rfl, if_pos (by decide), if_pos (by decide), bind_of_ok hactivation]
      refine (frame_sees hq).bind_left hactivation fun fr hframe => ?_
      rw [← hframe.1.base]
      refine (openCell_echoes hq hslot).bind ?_
      rintro cell p i s ⟨rfl, π', hp, hcell, hsame, hkept⟩
      exact hcapture hp hcell hsame (hkept h id callable (mem_rooted.mpr (.inl honStack)))
  | false =>
      rw [if_neg Bool.false_ne_true, if_neg (by decide), if_neg (by decide)]
      refine (capturedCell_sees hq _).bind fun cell i hcell => ?_
      exact hcapture hq hcell rfl callable

/-- Capturing all variables that the code describes. -/
theorem captureAll_tracks (mirrors : Mirrors π m r) {id size : Nat} {captures : List Capture}
    (callable : π.callable h id) (onStack : .object h ∈ m.stack.toList)
    (within : size ≤ r.stack.size) (offers : r.Offers size captures) :
    Echoes Tracks (captureAll h captures.length m) (Reference.captureAll id captures.length r) := by
  induction captures generalizing m r π with
  | nil => exact .ok ⟨rfl, π, mirrors⟩
  | cons c captures ih =>
      refine (captureNext_echoes mirrors callable onStack within offers).bind ?_
      rintro _ n _ s ⟨π', hn, hid, honStack, hstack, hoffers⟩
      exact ih hn hid honStack (hstack ▸ within) hoffers

/-- Making a closure of a constant. -/
theorem makeClosure_tracks (mirrors : Mirrors π m r) {index : Nat} {t : Template}
    {constants : List Constant} {captures : List Capture}
    (found : Reference.constant index r = .ok (.function t constants) r)
    (count : captures.length = t.upvalueCount) (offers : r.Offers (r.stack.size + 1) captures) :
    Echoes Tracks (makeClosure index m) (Reference.makeClosure index r) := by
  rw [makeClosure, Reference.makeClosure, bind_of_ok found]
  refine (constant_sees mirrors index).bind_left found fun v hv => ?_
  obtain ⟨hholds, hreach⟩ := hv
  generalize hfunction : Constant.function t constants = constant at hholds
  cases hholds with
  | number => cases hfunction
  | text => cases hfunction
  | @function g f name constants' hf hname hsize hall =>
  cases hfunction
  have hfreach := hreach g rfl
  have hholds : m.heap.Holds (.object g) (.function (f.template name) constants) :=
    .function hf hname hsize hall
  refine withRoots_echoes mirrors fun h mid hrun hmove => ?_
  obtain ⟨room, hrun⟩ := Heap.allocate_of_allocateClosure hrun
  have hmade := Heap.allocated_of_ok mirrors.valid.toOrderly hrun
  have hmoved := hmove hmade.keeps (hmade.valid mirrors.valid (fun _ h => by cases h) mirrors.live
    fun c hc => by
      obtain rfl : c = g := by simpa [Object.children] using hc
      exact hfreach)
  have hadded := hmoved.addCallable
    (k := .closure { template := f.template name, constants, captured := #[] })
    hmade.object?_self (.closure (hholds.later hmade.keeps hreach) .nil) fun id hid => by
      obtain ⟨o, -, ho, -⟩ := mirrors.callables h id hid.1
      exact hmade.fresh ⟨o, ho⟩ hid.2 rfl
  change Echoes Tracks _ ((do
    Reference.push (.callable r.callables.size)
    Reference.captureAll r.callables.size (f.template name).upvalueCount : Reference.Act Unit)
      { r with callables :=
          r.callables.push (.closure { template := f.template name, constants, captured := #[] }) })
  refine (push_echoes hadded (.callable (.inr ⟨rfl, rfl⟩))).bind ?_
  rintro _ n _ s ⟨rfl, hn, hcalls, hcallables⟩
  rw [bind_of_ok (ask_of_ok (Heap.function_eq_ok_iff.mpr (hmade.keeps _ _ hfreach hf))),
    show f.upvalueCount = captures.length from count.symm,
    show (f.template name).upvalueCount = captures.length from count.symm]
  refine captureAll_tracks hn (.inr ⟨rfl, rfl⟩) (by simp) ?_ (offers.later hcalls fun id k hk => ?_)
  · rw [hn.size, mirrors.size]
    simp
  · unfold Reference.closure? at hk ⊢
    rw [hcallables]
    split at hk
    · rename_i c hc
      have hlt := (Array.getElem?_eq_some_iff.mp hc).1
      rw [Array.getElem?_push, if_neg (by omega), hc]
      exact hk
    · cases hk

/-! ### The end of a call -/

/-- The end of a call. -/
theorem giveBack_tracks (mirrors : Mirrors π m r) (spare : m.Spare 1) :
    Echoes Tracks (giveBack m) (Reference.giveBack r) := by
  unfold giveBack Reference.giveBack
  refine (pop_echoes mirrors spare).bind ?_
  rintro v n d s ⟨hdenotes, -, -, hn, -⟩
  rw [bind_of_ok (get_apply n), bind_of_ok (get_apply s)]
  have hall := hn.frames
  cases hframes : n.frames with
  | nil =>
      rw [hframes] at hall
      rw [List.forall₂_nil_left_iff.mp hall]
      exact .ok ⟨rfl, π, hn⟩
  | cons fr outer =>
      rw [hframes] at hall
      obtain ⟨a, calls, hframe, houter, hcalls⟩ := List.forall₂_cons_left_iff.mp hall
      rw [hcalls]
      have hended : Mirrors π { n with frames := outer } { s with calls } :=
        { hn with frames := houter }
      obtain ⟨heap, hrun, hcut, hsame⟩ := hended.cutBack fr.slots
      simp only
      rw [bind_of_ok (modify_apply _ _), bind_of_ok hrun, truncate, bind_of_ok (modify_apply _ _),
        bind_of_ok (modify_apply _ _), Reference.truncate, bind_of_ok (modify_apply _ _),
        hframe.base, show calls.isEmpty = outer.isEmpty from ?_]
      · split
        · exact .ok ⟨rfl, π, hcut⟩
        · refine (push_tracks hcut (hsame v d hdenotes)).bind ?_
          rintro _ k _ t ⟨-, hk⟩
          exact .ok ⟨rfl, hk⟩
      · cases houter <;> rfl

/-! ### Control -/

/-- Jumping the same distance. -/
theorem jump_tracks (mirrors : Mirrors π m r) (distance : Nat) :
    Echoes Tracks (jump distance m) (Reference.jump distance r) := by
  unfold jump Reference.jump
  refine (frame_sees mirrors).bind fun fr a hframe => ?_
  rw [hframe.1.ip]
  exact setIp_tracks mirrors _

/-- Jumping back the same distance. -/
theorem jumpBack_tracks (mirrors : Mirrors π m r) (distance : Nat) :
    Echoes Tracks (jumpBack distance m) (Reference.jumpBack distance r) := by
  unfold jumpBack Reference.jumpBack
  refine (frame_sees mirrors).bind fun fr a hframe => ?_
  rw [hframe.1.ip]
  split
  · exact setIp_tracks mirrors _
  · exact stop_echoes

/-- The text of a function is the text of its template. -/
theorem displayFunction_eq {heap : Heap} {f : Function} {name : Option String}
    (named : heap.Named f.name name) :
    heap.displayFunction f = .ok (Reference.displayTemplate (f.template name)) := by
  unfold Heap.displayFunction
  cases hn : f.name with
  | none =>
      rw [hn] at named
      cases name with
      | none => rfl
      | some s => exact named.elim
  | some g =>
      rw [hn] at named
      cases name with
      | none => exact named.elim
      | some s =>
          simp only [Heap.string_eq_ok_iff.mpr named]
          rfl

/-- A value has the text of the datum that it denotes. -/
theorem Mirroring.display (mirrors : Mirrors π m r) (denotes : Denotes m.heap π v d) :
    ∃ text, m.heap.display v = .ok text ∧ r.display d = some text := by
  cases denotes with
  | nil | bool | number => exact ⟨_, rfl, rfl⟩
  | text hs =>
      rw [Heap.display, Heap.object_of_object? hs]
      exact ⟨_, rfl, rfl⟩
  | callable hc =>
      obtain ⟨o, k, ho, hk, hembodies⟩ := mirrors.callables _ _ hc
      rw [Heap.display, Heap.object_of_object? ho, Reference.display, hk]
      cases hembodies with
      | native => exact ⟨_, rfl, rfl⟩
      | @closure c k hholds =>
          refine ⟨Reference.displayTemplate k.template, ?_, rfl⟩
          generalize hfunction : Constant.function k.template k.constants = constant at hholds
          cases hholds with
          | text => cases hfunction
          | function hf hname =>
              obtain ⟨htemplate, -⟩ := Constant.function.inj hfunction
              change (do m.heap.displayFunction (← m.heap.function c.function)) = _
              rw [Heap.function_eq_ok_iff.mpr hf, htemplate]
              exact displayFunction_eq hname

/-- Printing a value. -/
theorem print_tracks (mirrors : Mirrors π m r) (spare : m.Spare 1) :
    Echoes Tracks (print m) (Reference.print r) := by
  unfold print Reference.print
  refine (pop_echoes mirrors spare).bind ?_
  rintro v n d s ⟨hdenotes, -, -, hn, -⟩
  rw [bind_of_ok (get_apply s)]
  obtain ⟨text, htext, htext'⟩ := hn.display hdenotes
  rw [bind_of_ok (ask_of_ok htext), htext']
  exact .ok ⟨rfl, π, { hn with printout := congrArg (·.writeLine text) hn.printout }⟩

/-- Taking a captured variable off the stack. -/
theorem closeTop_tracks (mirrors : Mirrors π m r) :
    Echoes Tracks (closeTop m) ((do let _ ← Reference.pop : Reference.Act Unit) r) := by
  obtain ⟨heap, hrun, hcut, -⟩ := mirrors.cutBack (m.stack.size - 1)
  have hpop : (do let _ ← Reference.pop : Reference.Act Unit) r =
      .ok () { r with stack := r.stack.shrink (m.stack.size - 1) } := by
    rw [← mirrors.size, ← pop_eq_shrink]
    rfl
  rw [hpop, closeTop, bind_of_ok (get_apply m)]
  by_cases hempty : m.stack.size = 0
  · rw [if_pos hempty]
    exact .fault
  · rw [if_neg hempty]
    change Echoes Tracks ((do closeFrom (m.stack.size - 1); let _ ← pop : Action Unit) m) _
    rw [bind_of_ok hrun]
    rw [← pop_eq_shrink] at hcut
    exact .ok ⟨rfl, π, hcut⟩

end Machine

end Lox
