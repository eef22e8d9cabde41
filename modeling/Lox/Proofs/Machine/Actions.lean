import Mathlib.Data.List.TakeWhile
import Lox.Proofs.Machine.Calls

/-!
# Actions of a poised machine

Each action of the machine finds what it needs, as long as the machine is poised, and leaves it
poised. Where a program is to blame, the action raises a runtime error, which leaves the machine
idle. The only fault is a collection that overflows.

## Main definitions

* `Ends` — how an action may end.

## Main results

* `Poised.raise` — raising a runtime error.
* `Poised.push`, `Poised.pop`, `Poised.peek` — the stack.
* `closeFrom_spec` — closing cells.
-/

namespace Lox

/-- How an action may **end**: with an answer, or with a runtime error that is the fault of the
program and leaves the machine idle, or with a collection that overflows. -/
inductive Ends {α : Type} (ok : α → Machine → Prop) :
    EStateM.Result Interruption Machine α → Prop
  | ok {a : α} {m : Machine} : ok a m → Ends ok (.ok a m)
  | raised {e : RuntimeError} {m : Machine} : e.cause.kind ≠ .invalidBytecode → m.Idle →
      Ends ok (.error (.raised e) m)
  | lost {f : Fault} {m : Machine} : Heap.Lost f m.heap → Ends ok (.error (.fault f) m)

namespace Ends

variable {α β : Type} {ok : α → Machine → Prop} {ok' : β → Machine → Prop} {m : Machine}

/-- A sequence ends as its parts do. -/
theorem bind {x : Action α} {f : α → Action β} (first : Ends ok (x m))
    (rest : ∀ a m', ok a m' → Ends ok' (f a m')) : Ends ok' ((x >>= f) m) := by
  simp only [Bind.bind, EStateM.bind]
  revert first
  generalize x m = result
  intro first
  cases first with
  | ok h => exact rest _ _ h
  | raised hcause hidle => exact .raised hcause hidle
  | lost h => exact .lost h

/-- Less may be said of the answer. -/
theorem imp {ok' : α → Machine → Prop} {result : EStateM.Result Interruption Machine α}
    (ends : Ends ok result) (answers : ∀ a m, ok a m → ok' a m) : Ends ok' result := by
  cases ends with
  | ok h => exact .ok (answers _ _ h)
  | raised hcause hidle => exact .raised hcause hidle
  | lost h => exact .lost h

end Ends

namespace Machine

variable {m : Machine} {C : Call} {hands : List Value} {P Q : Profile} {b : Bool} {v : Value}
  {h : Handle} {o : Object}

/-- A question that has an answer. -/
theorem ask_of_ok {α : Type} {question : Machine → Except Fault α} {a : α}
    (h : question m = .ok a) : ask question m = .ok a m := by
  rw [ask, h]

/-- A value that is there. -/
theorem demand_some {α : Type} (a : α) (m : Machine) : demand (some a) m = .ok a m := rfl

/-! ### The stack -/

/-- The stack may be changed if no object comes out of nowhere. -/
theorem Poised.restack (poised : m.Poised C hands P) {stack : Array Value} {hands' : List Value}
    (values : ∀ h, .object h ∈ hands' ∨ .object h ∈ stack.toList →
      .object h ∈ hands ∨ .object h ∈ m.stack.toList)
    (height : stack.size = Q.length + C.below.length)
    (shares : ∀ e ∈ m.openCells.entries, (Q ++ C.below).shares e.1 = true)
    (room : stack.size ≤ m.stackMax) : ({ m with stack } : Machine).Poised C hands' Q := by
  refine { poised with secure := ?_, height := height, shares := shares, room := room }
  refine poised.secure.of_reaches fun h hh => .root ?_
  rcases mem_holding.mp hh with hmem | hmem
  · rcases values h (.inl hmem) with hmem | hmem
    · exact mem_holding.mpr (.inl hmem)
    · exact mem_holding.mpr (.inr (mem_rooted.mpr (.inl hmem)))
  · rcases mem_rooted.mp hmem with hmem | hrest
    · rcases values h (.inr hmem) with hmem | hmem
      · exact mem_holding.mpr (.inl hmem)
      · exact mem_holding.mpr (.inr (mem_rooted.mpr (.inl hmem)))
    · exact mem_holding.mpr (.inr (mem_rooted.mpr (.inr hrest)))

/-- Another profile may be taken that allows the cells that are open. -/
theorem Poised.reprofile (poised : m.Poised C hands P) (height : Q.length = P.length)
    (shares : ∀ e ∈ m.openCells.entries, (Q ++ C.below).shares e.1 = true) :
    m.Poised C hands Q :=
  { poised with height := by rw [height, poised.height], shares := shares }

/-- A weaker profile may be taken. -/
theorem Poised.weaken (poised : m.Poised C hands P) (weakens : P.Weakens Q) :
    m.Poised C hands Q :=
  poised.reprofile weakens.length_eq.symm fun e he =>
    (Profile.Weakens.append weakens C.below).shares (poised.shares e he)

/-- Values may be dropped from the hands, and values of the stack may be taken into them. -/
theorem Poised.handle (poised : m.Poised C hands P) {hands' : List Value}
    (values : ∀ h, .object h ∈ hands' → .object h ∈ hands ∨ .object h ∈ m.stack.toList) :
    m.Poised C hands' P :=
  poised.restack (fun h hh => hh.elim (values h) .inr) poised.height poised.shares poised.room

/-- The slot of an open cell is on the stack. -/
theorem Poised.open_lt (poised : m.Poised C hands P) {e : Nat × Handle}
    (he : e ∈ m.openCells.entries) : e.1 < m.stack.size := by
  have := Profile.lt_of_shares (poised.shares e he)
  rw [List.length_append] at this
  rw [poised.height]
  exact this

/-- Popping always succeeds. -/
theorem pop_apply (m : Machine) :
    pop m = .ok (m.stack.back?.getD .nil) { m with stack := m.stack.pop } := rfl

/-- Popping a value into the hands. No cell may be open for its slot. -/
theorem Poised.pop (poised : m.Poised C hands (false :: P)) :
    ∃ v, pop m = .ok v { m with stack := m.stack.pop } ∧ m.stack.back? = some v ∧
      ({ m with stack := m.stack.pop } : Machine).Poised C (v :: hands) P := by
  have hsize := poised.height
  rw [List.length_cons] at hsize
  obtain ⟨v, hv⟩ : ∃ v, m.stack.back? = some v := by
    rw [Array.back?_eq_getElem?]
    exact ⟨_, Array.getElem?_eq_getElem (by omega)⟩
  have hmem : v ∈ m.stack.toList := by
    rw [Array.back?_eq_getElem?] at hv
    exact Array.mem_toList_iff.mpr (Array.mem_of_getElem? hv)
  refine ⟨v, by rw [pop_apply, hv]; rfl, hv, ?_⟩
  refine poised.restack (fun h hh => ?_) (by simp; omega)
    (fun e he => Profile.shares_of_shares_false (poised.shares e he))
    (by have := poised.room; simp; omega)
  rcases hh with hh | hh
  · rcases List.mem_cons.mp hh with heq | hh
    · exact .inr (heq ▸ hmem)
    · exact .inl hh
  · refine .inr ?_
    rw [Array.toList_pop] at hh
    exact List.mem_of_mem_dropLast hh

/-- Looking at a value takes it into the hands, too. -/
theorem Poised.slotValue (poised : m.Poised C hands P) {slot : Nat} (lt : slot < m.stack.size) :
    ∃ v, slotValue slot m = .ok v m ∧ m.stack[slot]? = some v ∧ m.Poised C (v :: hands) P := by
  have hv : m.stack[slot]? = some m.stack[slot] := Array.getElem?_eq_getElem lt
  refine ⟨m.stack[slot], ?_, hv, poised.handle fun h hh => ?_⟩
  · rw [Machine.slotValue, bind_of_ok (get_apply m), hv]
    rfl
  · rcases List.mem_cons.mp hh with heq | hh
    · exact .inr (heq ▸ Array.mem_toList_iff.mpr (Array.getElem_mem lt))
    · exact .inl hh

/-- Looking at a value under others. -/
theorem Poised.peek (poised : m.Poised C hands P) (depth : Nat) (lt : depth < P.length) :
    ∃ v, peek depth m = .ok v m ∧ m.stack[m.stack.size - 1 - depth]? = some v ∧
      m.Poised C (v :: hands) P := by
  have hlt : depth < m.stack.size := by
    rw [poised.height]
    omega
  obtain ⟨v, -, hv, hpoised⟩ := 
    poised.slotValue (show m.stack.size - 1 - depth < m.stack.size by omega)
  refine ⟨v, ?_, hv, hpoised⟩
  rw [Machine.peek, bind_of_ok (get_apply m)]
  simp only [if_pos hlt, hv]
  rfl

/-- Setting a slot to a value in the hands. -/
theorem Poised.setSlot (poised : m.Poised C hands P) {slot : Nat} (lt : slot < m.stack.size)
    (mem : v ∈ hands) :
    Machine.setSlot slot v m = .ok () { m with stack := m.stack.setIfInBounds slot v } ∧
      ({ m with stack := m.stack.setIfInBounds slot v } : Machine).Poised C hands P := by
  refine ⟨?_, poised.restack (fun h hh => ?_) (by simpa using poised.height) poised.shares
    (by simpa using poised.room)⟩
  · rw [Machine.setSlot, bind_of_ok (get_apply m), if_pos lt]
    rfl
  · rcases hh with hh | hh
    · exact .inl hh
    · rcases Array.mem_or_eq_of_mem_setIfInBounds (Array.mem_toList_iff.mp hh) with hh | heq
      · exact .inr (Array.mem_toList_iff.mpr hh)
      · exact .inl (heq ▸ mem)

/-! ### The frame and its code -/

theorem Poised.frame (poised : m.Poised C hands P) : frame m = .ok C.frame m := by
  rw [Machine.frame, bind_of_ok (get_apply m), poised.frames]
  rfl

theorem Poised.chunk (poised : m.Poised C hands P) : chunk m = .ok C.function.chunk m := by
  rw [Machine.chunk, bind_of_ok poised.frame]
  rw [bind_of_ok (ask_of_ok (Heap.function_eq_ok_iff.mpr poised.runs.function))]
  rfl

/-- The frame may be moved to an offset behind some code. -/
theorem Poised.setIp (poised : m.Poised C hands P) {ip : Nat}
    (inside : ip - 1 < C.function.chunk.code.size) :
    ∃ m', setIp ip m = .ok () m' ∧ m'.Poised (C.goto ip) hands P ∧
      m'.heap = m.heap ∧ m'.stack = m.stack ∧ m'.openCells = m.openCells := by
  have hrun : Machine.setIp ip m =
      .ok () { m with frames := { C.frame with ip } :: C.outer } := by
    rw [Machine.setIp, modify_apply, poised.frames]
  refine ⟨_, hrun, ⟨?_, rfl, { poised.runs with }, poised.calls, poised.script, poised.slots,
    poised.height, poised.shares, inside, ?_, poised.room⟩, rfl, rfl, rfl⟩
  · refine poised.secure.of_reaches fun h hh => .root ?_
    simp only [mem_holding, mem_rooted, poised.frames, List.mem_cons, exists_eq_or_imp] at hh ⊢
    exact hh
  · have := poised.depth
    rw [poised.frames] at this
    exact this

/-- A byte of the code behind the frame's offset. -/
theorem Poised.readByte (poised : m.Poised C hands P) {byte : UInt8}
    (found : C.function.chunk.code[C.frame.ip]? = some byte) :
    ∃ m', readByte m = .ok byte m' ∧
      m'.Poised (C.after 1) hands P ∧
      m'.heap = m.heap ∧ m'.stack = m.stack ∧ m'.openCells = m.openCells := by
  have hlt := (Array.getElem?_eq_some_iff.mp found).1
  obtain ⟨m', hset, hposed⟩ :=
    poised.setIp (show C.frame.ip + 1 - 1 < C.function.chunk.code.size by omega)
  refine ⟨m', ?_, hposed⟩
  rw [Machine.readByte, bind_of_ok poised.frame, bind_of_ok poised.chunk, found,
    bind_of_ok (demand_some byte m), bind_of_ok hset]
  rfl

/-- A constant of the function is reached through the frame. -/
theorem Poised.constant (poised : m.Poised C hands P) {i : Nat} {k : Constant}
    (found : C.constants[i]? = some k) :
    ∃ v, constant i m = .ok v m ∧ m.heap.Holds v k ∧ k.Typed ∧
      ∀ h, v = .object h → m.heap.Reaches m.rooted h := by
  obtain ⟨v, hv, hholds⟩ := poised.runs.holds.value found
  refine ⟨v, ?_, hholds, poised.runs.typed k (List.mem_of_getElem? found), fun h hh => ?_⟩
  · rw [Machine.constant, bind_of_ok poised.chunk, hv]
    rfl
  · have hroot : C.frame.closure ∈ m.rooted :=
      mem_rooted.mpr (.inr (.inl ⟨C.frame, by simp [poised.frames], rfl⟩))
    refine (poised.runs.reaches hroot).child poised.runs.function ?_
    simp [Object.children, ← hh, Array.mem_of_getElem? hv]

/-! ### The heap -/

/-- Values that are reached may be taken into the hands. -/
theorem Poised.reach (poised : m.Poised C hands P) {hands' : List Value}
    (reached : ∀ h, .object h ∈ hands' → m.heap.Reaches (m.holding hands) h) :
    m.Poised C hands' P := by
  refine { poised with secure := poised.secure.of_reaches fun h hh => ?_ }
  rcases mem_holding.mp hh with hmem | hmem
  · exact reached h hmem
  · exact .root (mem_holding.mpr (.inr hmem))

/-- Empty hands. -/
theorem Poised.drop (poised : m.Poised C hands P) : m.Poised C [] P :=
  poised.handle fun _ hh => absurd hh List.not_mem_nil

/-- The roots of a machine are live. -/
theorem Poised.live (poised : m.Poised C hands P) : ∀ h ∈ m.rooted, m.heap.Live h :=
  fun h hh => poised.secure.live h (mem_holding.mpr (.inr hh))

/-- After an operation of the heap that keeps the roots, the machine is poised with empty
hands. -/
theorem Poised.renew (poised : m.Poised C hands P) {heap : Heap}
    (keeps : m.heap.Keeps m.rooted heap) (valid : heap.Valid) :
    ({ m with heap } : Machine).Poised C [] P := by
  have hempty := poised.drop
  have hroot : ∀ fr ∈ m.frames, m.heap.Reaches m.rooted fr.closure := fun fr hfr =>
    .root (mem_rooted.mpr (.inr (.inl ⟨fr, hfr, rfl⟩)))
  rw [poised.frames] at hroot
  refine { poised with secure := ?_, runs := ?_, calls := ?_ }
  · exact hempty.secure.keeps keeps valid fun e he =>
      .root (mem_rooted.mpr (.inr (.inr (.inl ⟨e, he, rfl⟩))))
  · exact poised.runs.endures keeps.endures (hroot _ (by simp))
  · exact poised.calls.endures keeps.endures fun fr hfr => hroot fr (List.mem_cons_of_mem _ hfr)

/-- A new object is taken into the hands. -/
theorem Poised.take (poised : m.Poised C hands P) (ho : m.heap.object? h = some o)
    (children : ∀ c, .object c ∈ o.children → m.heap.Reaches (m.holding hands) c)
    (fine : m.heap.Fine m.openCells.entries C.building h o) :
    m.Poised C (.object h :: hands) P :=
  { poised with secure := poised.secure.add ho children fine }

/-! ### Closing cells -/

/-- Closing cells one by one. -/
theorem closing_spec {b : Option Handle} {roots : List Handle} {kept : List (Nat × Handle)}
    (closing : List (Nat × Handle)) (secure : m.heap.Secure (closing ++ kept) b roots)
    (inside : ∀ e ∈ closing, e.1 < m.stack.size)
    (values : ∀ h, .object h ∈ m.stack.toList → h ∈ roots) :
    ∃ heap, (closing.forM fun (slot, cell) => closeCell slot cell : Action Unit) m =
        .ok () { m with heap } ∧
      heap.Secure kept b roots ∧ m.heap.Endures (fun _ => True) heap := by
  induction closing generalizing m with
  | nil => exact ⟨m.heap, rfl, secure, .refl _⟩
  | cons e closing ih =>
      obtain ⟨slot, cell⟩ := e
      have hlt : slot < m.stack.size := inside _ (List.mem_cons_self ..)
      have hcell := secure.opened (slot, cell) (List.mem_cons_self ..)
      have hslot : slotValue slot m = .ok m.stack[slot] m := by
        rw [Machine.slotValue, bind_of_ok (get_apply m), Array.getElem?_eq_getElem hlt]
        rfl
      have hset : onHeap (Heap.setCell cell (.closed m.stack[slot])) m =
          .ok () { m with heap := m.heap.replace cell (.cell (.closed m.stack[slot])) } := by
        simp only [onHeap, Heap.setCell, Heap.cell_eq_ok_iff.mpr hcell]
      have hclose : closeCell slot cell m =
          .ok () { m with heap := m.heap.replace cell (.cell (.closed m.stack[slot])) } := by
        rw [closeCell, bind_of_ok hslot, hset]
      have hnodup := secure.nodup
      rw [List.cons_append, List.nodup_cons] at hnodup
      -- the slot of an open cell is told by the cell
      have hother : ∀ slot', (slot', cell) ∉ closing ++ kept := fun slot' hmem => by
        have hopened := secure.opened (slot', cell) (List.mem_cons_of_mem _ hmem)
        obtain rfl : slot = slot' := by simpa [hcell] using hopened
        exact hnodup.1 hmem
      have hsecure : (m.heap.replace cell (.cell (.closed m.stack[slot]))).Secure
          (closing ++ kept) b roots := by
        refine secure.replace hcell (.inl rfl) rfl (fun c hc => ?_) (.closed _)
          (List.suffix_cons _ _) (fun slot' g hne hmem => ?_) fun slot' hmem =>
            absurd hmem (hother slot')
        · refine .root (values c ?_)
          have heq : .object c = m.stack[slot] := by simpa [Object.children] using hc
          rw [heq]
          exact Array.mem_toList_iff.mpr (Array.getElem_mem hlt)
        · rcases List.mem_cons.mp hmem with heq | hmem
          · exact absurd (congrArg Prod.snd heq) hne
          · exact hmem
      obtain ⟨heap, hrun, hdone, hendures⟩ :=
        ih (m := { m with heap := m.heap.replace cell (.cell (.closed m.stack[slot])) }) hsecure
          (fun e he => inside e (List.mem_cons_of_mem _ he)) values
      refine ⟨heap, ?_, hdone, (Heap.endures_replace hcell (.inl rfl) (by simp)).trans hendures⟩
      refine Eq.trans (forM_cons_of_ok (u := PUnit.unit) ?_) hrun
      exact hclose

/-- Closing all cells from a slot on leaves those below it. -/
theorem closeFrom_spec {b : Option Handle} {roots : List Handle} (slot : Nat)
    (secure : m.heap.Secure m.openCells.entries b roots)
    (inside : ∀ e ∈ m.openCells.entries, e.1 < m.stack.size)
    (values : ∀ h, .object h ∈ m.stack.toList → h ∈ roots) :
    ∃ heap kept, closeFrom slot m = .ok () { m with heap, openCells := ⟨kept⟩ } ∧
      heap.Secure kept b roots ∧ m.heap.Endures (fun _ => True) heap ∧
      ∀ e ∈ kept, e ∈ m.openCells.entries ∧ e.1 < slot := by
  have hsplit := List.takeWhile_append_dropWhile (p := fun e : Nat × Handle => decide (e.1 < slot))
    (l := m.openCells.entries)
  have hperm : (m.openCells.entries.dropWhile (·.1 < slot) ++
      m.openCells.entries.takeWhile (·.1 < slot)).Perm m.openCells.entries := by
    conv => rhs; rw [← hsplit]
    exact List.perm_append_comm
  have hsecure : m.heap.Secure (m.openCells.entries.dropWhile (·.1 < slot) ++
      m.openCells.entries.takeWhile (·.1 < slot)) b roots := secure.perm hperm.symm
  obtain ⟨heap, hrun, hdone, hendures⟩ := closing_spec
    (m := { m with openCells := ⟨m.openCells.entries.takeWhile (·.1 < slot)⟩ }) _ hsecure
    (fun e he => inside e (List.dropWhile_sublist _ |>.mem he)) values
  refine ⟨heap, _, ?_, hdone, hendures, fun e he => ⟨List.takeWhile_sublist _ |>.mem he, ?_⟩⟩
  · rw [closeFrom, bind_of_ok (get_apply m)]
    exact hrun
  · simpa using List.mem_takeWhile_imp (p := fun e : Nat × Handle => decide (e.1 < slot)) he

/-! ### Runtime errors -/

/-- A name that has a text, or no name at all, can be read. -/
theorem mapM_string {heap : Heap} {h : Option Handle} {name : Option String}
    (named : heap.Named h name) : h.mapM heap.string = .ok name := by
  cases h with
  | none =>
      cases name with
      | none => rfl
      | some text => exact named.elim
  | some g =>
      cases name with
      | none => exact named.elim
      | some text =>
          simp [Option.mapM_some, Heap.string_eq_ok_iff.mpr named, Functor.map, Except.map]

/-- The line of a frame is known. -/
theorem traceLine_ok {heap : Heap} {fr : Frame} {f : Function} {constants : List Constant}
    {L : Listing} (runs : heap.Runs fr f constants L) (inside : fr.ip - 1 < f.chunk.code.size) :
    ∃ t, traceLine heap fr = .ok t := by
  obtain ⟨name, hname⟩ := runs.named
  have hline : fr.ip - 1 < f.chunk.lines.size := runs.lines ▸ inside
  refine ⟨⟨name, f.chunk.lines[fr.ip - 1]⟩, ?_⟩
  simp only [traceLine, Heap.function_eq_ok_iff.mpr runs.function, bind, Except.bind,
    mapM_string hname, Array.getElem?_eq_getElem hline, pure, Except.pure]

/-- The line of a frame that waits is known. -/
theorem traceLine_of_awaits {heap : Heap} {fr : Frame} {outer : List Frame}
    (awaits : heap.Awaits fr outer P) : ∃ t, traceLine heap fr = .ok t := by
  obtain ⟨f, constants, L, hruns, hat, -⟩ := awaits
  have hlt := hat.lt hruns.listed
  rw [Listing.size, ← hruns.code, Array.length_toList] at hlt
  exact traceLine_ok hruns (by omega)

/-- The trace of frames whose lines are known. -/
theorem trace_ok {heap : Heap} {frames : List Frame}
    (each : ∀ fr ∈ frames, ∃ t, traceLine heap fr = .ok t) :
    ∃ ts, frames.mapM (traceLine heap) = .ok ts := by
  induction frames with
  | nil => exact ⟨[], rfl⟩
  | cons fr frames ih =>
      obtain ⟨t, ht⟩ := each fr (by simp)
      obtain ⟨ts, hts⟩ := ih fun fr hfr => each fr (List.mem_cons_of_mem _ hfr)
      exact ⟨t :: ts, by simp [List.mapM_cons, ht, hts, bind, Except.bind, pure, Except.pure]⟩

/-- Every frame of a poised machine has a line. -/
theorem Poised.traces (poised : m.Poised C hands P) :
    ∀ fr ∈ m.frames, ∃ t, traceLine m.heap fr = .ok t := by
  have hcalls : ∀ {outer : List Frame} {below : Profile}, m.heap.Calls outer below →
      ∀ fr ∈ outer, ∃ t, traceLine m.heap fr = .ok t := fun calls => by
    induction calls with
    | nil => exact nofun
    | cons hawaits _ _ ih =>
        intro fr hfr
        rcases List.mem_cons.mp hfr with rfl | hfr
        · exact traceLine_of_awaits hawaits
        · exact ih fr hfr
  intro fr hfr
  rw [poised.frames] at hfr
  rcases List.mem_cons.mp hfr with rfl | hfr
  · exact traceLine_ok poised.runs poised.inside
  · exact hcalls poised.calls fr hfr

/-- A machine whose frames have lines can raise a runtime error, which leaves it idle. -/
theorem raise_spec {α : Type} {ok : α → Machine → Prop} {cause : Cause}
    (fair : cause.kind ≠ .invalidBytecode)
    (secure : m.heap.Secure m.openCells.entries none m.rooted)
    (inside : ∀ e ∈ m.openCells.entries, e.1 < m.stack.size)
    (traces : ∀ fr ∈ m.frames, ∃ t, traceLine m.heap fr = .ok t) : Ends ok (raise cause m) := by
  obtain ⟨trace, htrace⟩ := trace_ok traces
  obtain ⟨heap, kept, hclose, hsecure, -, hkept⟩ := closeFrom_spec 0 secure inside
    fun h hh => mem_rooted.mpr (.inl hh)
  obtain rfl : kept = [] := List.eq_nil_iff_forall_not_mem.mpr fun e he =>
    absurd (hkept e he).2 (Nat.not_lt_zero _)
  have hreset : reset m =
      .ok () { m with heap, openCells := {}, stack := #[], frames := [] } := by
    rw [reset, bind_of_ok hclose]
    rfl
  have hraise : (raise cause : Action α) m = .error (.raised ⟨cause, trace⟩)
      { m with heap, openCells := {}, stack := #[], frames := [] } := by
    rw [raise, bind_of_ok (ask_of_ok htrace), bind_of_ok hreset]
    rfl
  rw [hraise]
  refine .raised fair ⟨rfl, rfl, rfl, hsecure.of_reaches fun h hh => .root ?_⟩
  simp only [mem_rooted, List.not_mem_nil, false_and, exists_false, false_or] at hh ⊢
  exact .inr (.inr (.inr hh))

/-- A poised machine can raise a runtime error. -/
theorem Poised.raise {α : Type} {ok : α → Machine → Prop} (poised : m.Poised C hands P)
    (whole : C.building = none) {cause : Cause} (fair : cause.kind ≠ .invalidBytecode) :
    Ends ok (raise cause m) :=
  raise_spec fair (whole ▸ poised.drop.secure) (fun _ he => poised.open_lt he) poised.traces

/-- A value in the hands may be put on the stack if there is room. -/
theorem Poised.pushed (poised : m.Poised C hands P) (owns : ∀ h, v = .object h → v ∈ hands)
    (room : m.stack.size < m.stackMax) :
    ({ m with stack := m.stack.push v } : Machine).Poised C hands (false :: P) := by
  refine poised.restack (fun h hh => ?_) ?_ (fun e he => ?_) ?_
  · rcases hh with hh | hh
    · exact .inl hh
    · rw [Array.toList_push, List.mem_append, List.mem_singleton] at hh
      rcases hh with hh | rfl
      · exact .inr hh
      · exact .inl (owns h rfl)
  · simp [poised.height]
    omega
  · have hshares := poised.shares e he
    rw [List.cons_append, Profile.shares_cons_of_lt (Profile.lt_of_shares hshares)]
    exact hshares
  · simp
    omega

/-- Pushing succeeds when there is room. -/
theorem push_of_room (room : m.stack.size < m.stackMax) :
    Machine.push v m = .ok () { m with stack := m.stack.push v } := by
  rw [Machine.push, if_neg (Nat.not_le.mpr room)]

/-- Pushing a value that is in the hands. -/
theorem Poised.push (poised : m.Poised C hands P) (whole : C.building = none)
    (owns : ∀ h, v = .object h → v ∈ hands) :
    Ends (fun _ m' => m' = { m with stack := m.stack.push v } ∧ m'.Poised C hands (false :: P))
      (push v m) := by
  unfold Machine.push
  split
  · exact poised.raise whole (by decide)
  · rename_i hroom
    exact .ok ⟨rfl, poised.pushed owns (Nat.not_le.mp hroom)⟩

/-- Closing cells on the way. -/
theorem Poised.closeFrom (poised : m.Poised C hands P) (slot : Nat) :
    ∃ heap kept, closeFrom slot m = .ok () { m with heap, openCells := ⟨kept⟩ } ∧
      ({ m with heap, openCells := ⟨kept⟩ } : Machine).Poised C hands P ∧
      ∀ e ∈ kept, e.1 < slot := by
  obtain ⟨heap, kept, hrun, hsecure, hendures, hkept⟩ := closeFrom_spec slot poised.secure
    (fun _ he => poised.open_lt he) fun h hh => mem_holding.mpr (.inr (mem_rooted.mpr (.inl hh)))
  refine ⟨heap, kept, hrun, { poised with
    secure := hsecure.of_reaches fun h hh => .root ?_
    runs := poised.runs.endures hendures trivial
    calls := poised.calls.endures hendures fun _ _ => trivial
    shares := fun e he => poised.shares e (hkept e he).1 }, fun e he => (hkept e he).2⟩
  simp only [mem_holding, mem_rooted] at hh ⊢
  rcases hh with hh | hh | hh | ⟨e, he, rfl⟩ | hh
  · exact .inl hh
  · exact .inr (.inl hh)
  · exact .inr (.inr (.inl hh))
  · exact .inr (.inr (.inr (.inl ⟨e, (hkept e he).1, rfl⟩)))
  · exact .inr (.inr (.inr (.inr hh)))

end Machine

end Lox
