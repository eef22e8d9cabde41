import Lox.Proofs.Reference.Alongside
import Lox.Proofs.Reference.Runs

/-!
# Runs of a piece and of the whole

Two machines in the middle of a passage read the same instruction, make the same step and are in the
middle of the passage again. So while a piece runs by itself, the whole runs alongside. When the
piece comes to its end it ends its script; the whole comes to the end of the passage and goes on
from there.

That the machines stand in front of instructions of typed code is known of a machine that mirrors
the one with the piece.

## Main definitions

* `Reference.Proceeds` — how a step of both machines ends.
* `Reference.Arrives` — the machine of the whole at the end of a passage.

## Main results

* `step_alongside` — steps.
* `Ready.relays` — a piece that runs to its end, and the whole up to there.
* `Ready.runs_alongside` — a piece at the end of the whole.
-/

namespace Lox

namespace Reference

variable {F : Passage} {π π' : Matching} {r r' s s' : Reference} {d d' : Datum}
  {a a' : Activation} {outer outer' : List Activation} {k k' : Closure}
    {pre post : Listing} {l : Line}

/-- A scene with the call behind an instruction. -/
def behind (a : Activation) (outer : List Activation) (k : Closure) (op : OpCode) : Scene :=
  ⟨{ a with ip := a.ip + 1 + op.width }, outer, k⟩

/-- Bytes behind an operand of one byte tell how variables are captured. -/
theorem spells_of_reads {bs : List UInt8} {captures : List Capture}
    (reads : ∀ i < bs.length, k.template.code[a.ip + i]? = bs[i]?)
    (drop : bs.drop 2 = captures.flatMap Capture.bytes) :
    Spells (behind a outer k .closure) captures := fun i b hb => by
  rw [← drop, List.getElem?_drop] at hb
  have hread := reads (2 + i) (List.getElem?_eq_some_iff.mp hb).1
  rw [hb] at hread
  refine (congrArg (k.template.code[·]?) ?_).trans hread
  simp only [behind, OpCode.width]
  omega

/-- An inner call: both machines read the same instruction. -/
theorem Beside.fetch_inner (beside : Beside F π r r') (footing : r.Footing a outer k pre l post)
    (inner : outer ≠ []) : ∃ op operand operand' s s' x x', fetch r = .ok (op, operand) s ∧
      fetch r' = .ok (op, operand') s' ∧ Faces F π s s' x x' op operand operand' ∧
      x.outer ≠ [] := by
  have hcalls := beside.calls
  rw [footing.calls] at hcalls
  generalize hcalls' : r'.calls = calls' at hcalls
  cases hcalls with
  | script => exact absurd rfl inner
  | @inner _ a' _ outer' hcallee hbase hpos hip houter =>
  obtain ⟨k', hk', hkin, hcaptured⟩ := beside.closure hcallee footing.closure
  obtain ⟨op, operand, hform, hdepth, -, hdescribes⟩ := (footing.typed pre l post rfl).grounds
  have hreads' : ∀ i < l.bytes.length, k'.template.code[a'.ip + i]? = l.bytes[i]? := fun i hi => by
    rw [kin_template hkin, hip]
    exact footing.reads i hi
  refine ⟨op, operand, operand, _, _, behind a outer k op, behind a' outer' k' op,
    fetch_of_reads footing.calls footing.closure hform footing.reads,
    fetch_of_reads hcalls' hk' hform hreads', ?_, inner⟩
  have hmoved : Calls F π ({ a with ip := a.ip + 1 + op.width } :: outer)
      ({ a' with ip := a'.ip + 1 + op.width } :: outer') :=
    .inner hcallee hbase hpos (congrArg (· + 1 + op.width) hip) houter
  refine { beside.withCalls hmoved with
    shows := ⟨rfl, footing.closure⟩, shows' := ⟨rfl, hk'⟩, captured := hcaptured
    depth := ?_, same := fun _ => rfl, pooled := fun _ c c' hc hc' => ?_
    slot := fun _ => Nat.le_trans hpos (Nat.le_add_right _ _)
    ahead := fun _ hnil => absurd hnil inner, tells := fun hclosure => ?_ }
  · simp only [behind]
    rw [footing.height]
    omega
  · have hrel := forall₂_getElem? hkin.constants operand
    rw [show k.constants[operand]? = some c from hc,
      show k'.constants[operand]? = some c' from hc'] at hrel
    cases hrel with
    | some h => exact h
  · subst hclosure
    obtain ⟨t, constants, captures, hfound, hcount, hdrop⟩ := hdescribes rfl
    refine ⟨captures, ⟨spells_of_reads footing.reads hdrop, spells_of_reads hreads' hdrop,
      fun c _ _ => Nat.le_trans hpos (Nat.le_add_right _ _), fun hnil => absurd hnil inner⟩,
      fun t' inner' hfound' => ?_⟩
    cases hfound.symm.trans hfound'
    exact hcount

/-- The script: both machines read an instruction of the passage. -/
theorem Beside.fetch_script (beside : Beside F π r r') (footing : r.Footing a [] k pre l post)
    (inside : a.ip < F.code.length) : ∃ op operand operand' s s' x x',
      fetch r = .ok (op, operand) s ∧ fetch r' = .ok (op, operand') s' ∧
      Faces F π s s' x x' op operand operand' ∧ (op, l.bytes.length) ∈ F.outline := by
  have hcalls := beside.calls
  rw [footing.calls] at hcalls
  generalize hcalls' : r'.calls = calls' at hcalls
  cases hcalls with
  | inner _ _ _ _ houter => cases houter
  | @script _ a' hscript hwhole hbase hbase' hip hle =>
  have hfits := beside.fits
  have hwhole' : r'.closure? a'.callee = some F.around := hwhole ▸ beside.whole
  obtain rfl := Option.some.inj (beside.script.symm.trans (hscript ▸ footing.closure))
  obtain ⟨shift, before, code', after, hcode', hfront, hlaid, hconstants⟩ := hfits.code'
  obtain ⟨more, hcode, hbounded⟩ := footing.bounded hfits.code inside
  obtain ⟨op, ds, first, rest, front', rest', houtline, -, hrelocates, rfl, hlength⟩ :=
    hlaid.line hcode hbounded.known rfl
  have hmem : (op, l.bytes.length) ∈ F.outline := by simp [houtline]
  obtain ⟨N, hline, htargets⟩ := hbounded pre l more rfl
  obtain ⟨op', operand, hform, hdepth, hahead, -⟩ := hline.grounds
  obtain rfl : op' = op := by
    obtain ⟨_, hhead⟩ := hrelocates.head
    obtain ⟨_, hhead'⟩ := hform.head
    exact OpCode.toByte_inj (List.cons_eq_cons.mp (hhead'.symm.trans hhead)).1
  obtain ⟨operand', hshifted⟩ := hrelocates.shifted hform
  have hsize : F.code.length = a.ip + (l.bytes.length + Listing.size more) := by
    rw [footing.ip, ← hcode, Listing.code_append, Listing.code_cons, List.length_append,
      List.length_append]
    rfl
  have hreads' : ∀ i < ds.length, F.around.template.code[a'.ip + i]? = ds[i]? := fun i hi => by
    rw [hcode', hip, footing.ip, ← hfront, ← hlength, Nat.add_assoc,
      List.getElem?_append_right (Nat.le_add_right _ _), Nat.add_sub_cancel_left,
      List.append_assoc, List.getElem?_append_right (Nat.le_add_right _ _), Nat.add_sub_cancel_left,
      List.append_assoc, List.getElem?_append_left hi]
  have hwidth := hform.width_lt
  refine ⟨op', operand, operand', _, _, behind a [] F.part op', behind a' [] F.around op',
    fetch_of_reads footing.calls footing.closure hform footing.reads,
    fetch_of_reads hcalls' hwhole' hshifted.form hreads', ?_, hmem⟩
  have hmoved : Calls F π [{ a with ip := a.ip + 1 + op'.width }]
      [{ a' with ip := a'.ip + 1 + op'.width }] :=
    .script hscript hwhole hbase hbase'
      (show a'.ip + 1 + op'.width = F.front + (a.ip + 1 + op'.width) by omega)
      (show a.ip + 1 + op'.width ≤ F.code.length by omega)
  refine { beside.withCalls hmoved with
    shows := ⟨rfl, footing.closure⟩, shows' := ⟨rfl, hwhole'⟩, captured := ?_
    depth := ?_, same := hshifted.same, pooled := fun hpooled c c' hc hc' => ?_
    slot := fun hslot => ?_, ahead := fun hforward _ => ?_, tells := fun hclosure => ?_ }
  · simp only [behind]
    rw [hfits.captured, hfits.captured']
    exact .nil
  · simp only [behind]
    rw [footing.height]
    omega
  · rw [hshifted.pooled hpooled] at hc'
    exact hconstants operand c c' hc hc'
  · have := hshifted.slot hslot
    simp only [behind]
    omega
  · obtain ⟨Q, htarget⟩ := hahead hforward
    have hbound := htargets _ _ htarget
    have htwo : op'.width = 2 := by
      cases op' <;> first | rfl | cases hforward
    have : (pre ++ l :: more).size = F.code.length := by rw [Listing.size, hcode]
    simp only [behind, htwo]
    rw [footing.ip]
    omega
  · subst hclosure
    obtain ⟨captures, hdrop, hdrop', hproper, hcount⟩ := hshifted.captures rfl
    refine ⟨captures, ⟨spells_of_reads footing.reads hdrop, spells_of_reads hreads' hdrop',
      fun c hc hlocal => ?_, fun _ => ?_⟩, hcount⟩
    · have hne := hproper c hc hlocal
      have : c.index.toNat ≠ 0 := fun hzero => hne (UInt8.toNat_inj.mp hzero)
      omega
    · have hlength := congrArg List.length hdrop
      rw [List.length_drop, length_captures] at hlength
      have : 1 < l.bytes.length := hwidth
      change a.ip + 1 + 1 + 2 * captures.length ≤ F.code.length
      omega

/-! ### Steps -/

/-- How a step of both machines ends: they are in the middle of the passage, or both scripts have
ended. -/
def Proceeds (F : Passage) (status : Status) (s : Reference) (status' : Status) (s' : Reference) :
    Prop :=
  status' = status ∧ ((status = .running ∧ ∃ π, Beside F π s s') ∨
    (status = .halted ∧ ∃ π, Common π s s'))

/-- The end of a call. It is the end of the run only if there is no other call. -/
theorem giveBack_alongside (beside : Beside F π r r') (deep : 2 ≤ r.stack.size) :
    Alongside (fun status s status' s' => Proceeds F status s status' s' ∧
      (status = .halted → ∃ a, r.calls = [a])) (giveBack r) (giveBack r') := by
  obtain ⟨d, d', hd, hd', hlike⟩ := beside.datum (i := r.stack.size - 1) (by omega) (by omega)
  rw [← beside.size] at hd'
  have hpop : ∀ {r : Reference} {d : Datum}, r.slot? (r.stack.size - 1) = some d →
      pop r = .ok d { r with stack := r.stack.pop } := fun {r d} hd => by
    rw [pop, bind_of_ok (get_apply r), bind_of_ok (modify_apply _ _), hd]
    rfl
  have hpopped := beside.pop deep
  have hcalls := beside.calls
  unfold giveBack
  rw [bind_of_ok (hpop hd), bind_of_ok (hpop hd'), bind_of_ok (get_apply _),
    bind_of_ok (get_apply _)]
  generalize hactive : r.calls = calls at hcalls
  generalize hactive' : r'.calls = calls' at hcalls
  cases hcalls with
  | @script a a' _ _ hbase hbase' =>
      exact .ok ⟨⟨rfl, .inr ⟨rfl, π, { beside.toCommon with }⟩⟩, fun _ => ⟨a, rfl⟩⟩
  | @inner a a' outer outer' _ hbase hpos _ houter =>
      have hne : outer.isEmpty = false ∧ outer'.isEmpty = false := by
        cases houter <;> exact ⟨rfl, rfl⟩
      dsimp only
      rw [bind_of_ok (modify_apply _ _), bind_of_ok (modify_apply _ _), truncate, truncate,
        bind_of_ok (modify_apply _ _), bind_of_ok (modify_apply _ _), hne.1, hne.2, hbase,
        if_neg Bool.false_ne_true, if_neg Bool.false_ne_true]
      have hended : Beside F π
          { r with stack := r.stack.pop.shrink a.base, calls := outer }
          { r' with stack := r'.stack.pop.shrink a.base, calls := outer' } :=
        (hpopped.withCalls houter).shrink hpos
      refine (push_alongside hended hlike).bind ?_
      rintro _ s _ s' ⟨-, π', -, hs⟩
      exact .ok ⟨⟨rfl, .inl ⟨rfl, π', hs⟩⟩, fun h => (by cases h)⟩

/-- Both machines make a step. -/
theorem step_alongside (beside : Beside F π r r') (footing : r.Footing a outer k pre l post)
    (inside : outer = [] → a.ip < F.code.length) :
    Alongside (fun status s status' s' => Proceeds F status s status' s' ∧
      (status = .halted → ∃ n, (OpCode.giveBack, n) ∈ F.outline)) (step r) (step r') := by
  have hexecute : ∀ {op : OpCode} {operand operand' : Nat} {s s' : Reference} {x x' : Scene},
      fetch r = .ok (op, operand) s → fetch r' = .ok (op, operand') s' →
      Faces F π s s' x x' op operand operand' →
      (op = .giveBack → x.outer = [] → ∃ n, (OpCode.giveBack, n) ∈ F.outline) →
      Alongside (fun status s status' s' => Proceeds F status s status' s' ∧
        (status = .halted → ∃ n, (OpCode.giveBack, n) ∈ F.outline)) (step r) (step r') := by
    intro op operand operand' s s' x x' hfetch hfetch' faces hends
    unfold step
    rw [bind_of_ok hfetch, bind_of_ok hfetch']
    by_cases hop : op = .giveBack
    · subst hop
      have hdepth := faces.depth
      simp only [OpCode.depth] at hdepth
      simp only
      refine (giveBack_alongside faces.toBeside (by omega)).imp ?_
      rintro status t status' t' ⟨hproceeds, hhalted⟩
      refine ⟨hproceeds, fun h => hends rfl ?_⟩
      obtain ⟨b, hb⟩ := hhalted h
      exact (List.cons_eq_cons.mp (faces.shows.calls.symm.trans hb)).2
    · simp only [if_neg hop]
      refine (execute_alongside faces).bind ?_
      rintro _ t _ t' ⟨-, π', -, ht⟩
      exact .ok ⟨⟨rfl, .inl ⟨rfl, π', ht⟩⟩, fun h => (by cases h)⟩
  by_cases houter : outer = []
  · subst houter
    obtain ⟨op, operand, operand', s, s', x, x', hfetch, hfetch', faces, hmem⟩ :=
      beside.fetch_script footing (inside rfl)
    exact hexecute hfetch hfetch' faces fun hop _ => ⟨_, hop ▸ hmem⟩
  · obtain ⟨op, operand, operand', s, s', x, x', hfetch, hfetch', faces, hne⟩ :=
      beside.fetch_inner footing houter
    exact hexecute hfetch hfetch' faces fun _ hnil => absurd hnil hne

/-! ### Ends of scripts -/

/-- What two machines have in common does not depend on what else there is. -/
theorem Common.extend (common : Common π r r')
    (callables : ∀ (i : Nat) c, r.callables[i]? = some c → s.callables[i]? = some c)
    (store : ∀ (i : Nat) d, r.store[i]? = some d → s.store[i]? = some d)
    (callables' : ∀ (i : Nat) c, r'.callables[i]? = some c → s'.callables[i]? = some c)
    (store' : ∀ (i : Nat) d, r'.store[i]? = some d → s'.store[i]? = some d)
    (rest : s.globals = r.globals ∧ s.printout = r.printout ∧ s.stackMax = r.stackMax ∧
      s.clock = r.clock ∧ s.hostCalls = r.hostCalls)
    (rest' : s'.globals = r'.globals ∧ s'.printout = r'.printout ∧ s'.stackMax = r'.stackMax ∧
      s'.clock = r'.clock ∧ s'.hostCalls = r'.hostCalls) : Common π s s' := by
  obtain ⟨hglobals, hprintout, hstackMax, hclock, hhostCalls⟩ := rest
  obtain ⟨hglobals', hprintout', hstackMax', hclock', hhostCalls'⟩ := rest'
  refine ⟨common.oneToOne, fun i j h => ?_, fun i j h => ?_, ?_, ?_, ?_, ?_, ?_⟩
  · obtain ⟨c, c', hc, hc', hlike⟩ := common.callables i j h
    exact ⟨c, c', callables _ _ hc, callables' _ _ hc', hlike⟩
  · obtain ⟨d, d', hd, hd', hlike⟩ := common.locations i j h
    exact ⟨d, d', store _ _ hd, store' _ _ hd', hlike⟩
  · rw [hglobals, hglobals']
    exact common.globals
  · rw [hprintout, hprintout', common.printout]
  · rw [hstackMax, hstackMax', common.stackMax]
  · rw [hclock, hclock', common.clock]
  · rw [hhostCalls, hhostCalls', common.hostCalls]

/-- Raising a runtime error is no answer. -/
theorem raise_ne_ok {α : Type} {x : α} (cause : Cause) : (raise cause : Act α) r ≠ .ok x s := by
  intro h
  obtain ⟨_, _, _, hraise⟩ := bind_eq_ok_iff.mp h
  obtain ⟨_, _, _, hthrow⟩ := bind_eq_ok_iff.mp hraise
  obtain ⟨_, _, _, hthrow⟩ := bind_eq_ok_iff.mp hthrow
  cases hthrow

/-- At the end of the code of a script, the run ends. -/
theorem run_end {code : List UInt8} {budget : Nat} (calls : r.calls = [a])
    (closure : r.closure? a.callee = some k)
    (ends : k.template.code = code ++ (OpCode.pushNil.plain ++ OpCode.giveBack.plain))
    (ip : a.ip = code.length) (halts : run budget r = .ok .halted s) :
    ∃ stack, s = { r with store := r.store.push .nil, stack, calls := [] } := by
  have hread : ∀ i < 2, k.template.code[code.length + i]? =
      (OpCode.pushNil.plain ++ OpCode.giveBack.plain)[i]? := fun i hi => by
    rw [ends, List.getElem?_append_right (Nat.le_add_right _ _), Nat.add_sub_cancel_left]
  cases budget with
  | zero => cases halts
  | succ budget =>
      have hfetch : fetch r = .ok (.pushNil, 0) { r with calls := [{ a with ip := a.ip + 1 }] } :=
        fetch_of_reads calls closure
            (show OpCode.Form .pushNil 0 OpCode.pushNil.plain from .plain rfl (by decide))
              fun i hi => by
          obtain rfl : i = 0 := Nat.lt_one_iff.mp hi
          rw [ip]
          exact hread 0 (by decide)
      obtain ⟨status, s₁, hstep, hrest⟩ := bind_eq_ok_iff.mp halts
      unfold step at hstep
      rw [bind_of_ok hfetch] at hstep
      obtain ⟨_, s₂, hpush, hpure⟩ := bind_eq_ok_iff.mp hstep
      cases hpure
      have hpushed : s₁ = { r with
          store := r.store.push .nil, stack := r.stack.push r.store.size
          calls := [{ a with ip := a.ip + 1 }] } := by
        simp only [execute, push] at hpush
        split at hpush
        · exact absurd hpush (raise_ne_ok _)
        · cases hpush
          rfl
      clear hpush hstep
      subst hpushed
      cases budget with
      | zero => cases hrest
      | succ budget =>
          have hfetch' := fetch_of_reads (r := { r with
              store := r.store.push .nil, stack := r.stack.push r.store.size
              calls := [{ a with ip := a.ip + 1 }] }) rfl closure
            (show OpCode.Form .giveBack 0 OpCode.giveBack.plain from .plain rfl (by decide))
              fun i hi => by
              obtain rfl : i = 0 := Nat.lt_one_iff.mp hi
              simp only
              rw [ip]
              exact hread 1 (by decide)
          obtain ⟨status, s₂, hstep, hrest⟩ := bind_eq_ok_iff.mp hrest
          unfold step at hstep
          rw [bind_of_ok hfetch'] at hstep
          cases hstep
          cases hrest
          exact ⟨_, rfl⟩

/-! ### Runs -/

/-- The machine of the whole has come to the end of a passage. Nothing is on its stack but the
script. -/
structure Arrives (F : Passage) (π : Matching) (s r : Reference) : Prop where
  common : Common π s r
  calls : r.calls = [{ callee := F.whole, ip := F.front + F.code.length, base := 0 }]
  size : r.stack.size = 1
  whole : r.closure? F.whole = some F.around
  room : 0 < r.stackMax

/-- In the script, the machine stands inside the passage or at its end. -/
theorem Beside.within (beside : Beside F π r r') (footing : r.Footing a [] k pre l post) :
    k = F.part ∧ a.ip ≤ F.code.length ∧ a.base = 0 ∧
      r'.calls = [{ callee := F.whole, ip := F.front + a.ip, base := 0 }] := by
  have hcalls := beside.calls
  rw [footing.calls] at hcalls
  generalize r'.calls = calls' at hcalls
  cases hcalls with
  | inner _ _ _ _ houter => cases houter
  | script hscript hwhole hbase hbase' hip hle =>
      refine ⟨(Option.some.inj (beside.script.symm.trans (hscript ▸ footing.closure))).symm, hle,
        hbase, ?_⟩
      rw [← hwhole, ← hbase', ← hip]

end Reference

namespace Machine

open Reference (Beside Arrives Alongside Proceeds Fails Stuck)

variable {F : Passage} {m n : Machine} {r r' s s' : Reference} {π : Matching} {p : Picture}

/-- While a piece runs by itself to its end, the whole comes to the end of the passage, or it gets
stuck. -/
theorem Ready.relays {budget : Nat} (ready : m.Ready) (mirrors : Mirrors p m r)
    (beside : Beside F π r r') (ends : F.part.template.code =
      F.code ++ (OpCode.pushNil.plain ++ OpCode.giveBack.plain))
    (endless : ∀ entry ∈ F.outline, entry.1 ≠ .giveBack)
    (run : Machine.run budget m = .ok .halted n) (halts : Reference.run budget r = .ok .halted s) :
    ∃ j ≤ budget, (∃ f t, Reference.run j r' = .error (.fault f) t) ∨
      ∃ s' π', (∀ y, Reference.run (j + y) r' = Reference.run y s') ∧ Arrives F π' s s' := by
  induction budget generalizing m r r' p π with
  | zero => cases run
  | succ budget ih =>
      obtain ⟨a, outer, k, pre, l, post, footing⟩ := ready.footing mirrors
      by_cases hend : outer = [] ∧ a.ip = F.code.length
      · -- the end of the piece
        obtain ⟨rfl, hip⟩ := hend
        obtain ⟨rfl, -, hbase, hcalls⟩ := beside.within footing
        obtain ⟨stack, rfl⟩ := Reference.run_end footing.calls footing.closure ends hip halts
        refine ⟨0, Nat.zero_le _, .inr ⟨r', π, fun y => by rw [Nat.zero_add], ?_, ?_, ?_,
          beside.whole, ?_⟩⟩
        · exact beside.toCommon.extend (fun _ _ h => h)
            (fun _ _ h => Reference.getElem?_push_of_eq_some _ h) (fun _ _ h => h) (fun _ _ h => h)
            ⟨rfl, rfl, rfl, rfl, rfl⟩ ⟨rfl, rfl, rfl, rfl, rfl⟩
        · rw [hcalls, hip]
        · rw [beside.size, footing.level beside.fits.name ends hip, hbase]
        · rw [beside.stackMax]
          exact beside.room
      · have hinside : outer = [] → a.ip < F.code.length := by
          rintro rfl
          exact Nat.lt_of_le_of_ne (beside.within footing).2.1 fun hip => hend ⟨rfl, hip⟩
        have halong := Reference.step_alongside beside footing hinside
        obtain ⟨status, m₁, hstep, -⟩ := bind_eq_ok_iff.mp run
        obtain ⟨_, r₁, hstep', ⟨hsame, p', hmirrors⟩, hcontinues⟩ :=
          ((step_tracks ready mirrors).conj ready.step).right hstep
        subst hsame
        rw [hstep'] at halong
        generalize hwhole : Reference.step r' = result at halong
        cases halong with
        | @second f t _ hstuck =>
            obtain ⟨f, rfl⟩ := hstuck
            exact ⟨1, Nat.succ_le_succ (Nat.zero_le _), .inl ⟨f, t, Reference.run_of_error hwhole⟩⟩
        | @ok _ _ status' t h =>
            obtain ⟨⟨rfl, hnext⟩, hhalted⟩ := h
            rcases hnext with ⟨rfl, π', hbeside⟩ | ⟨rfl, -⟩
            · obtain ⟨j, hj, hdone⟩ := ih hcontinues hmirrors hbeside
                ((run_succ_of_running hstep).symm.trans run)
                ((Reference.run_of_running hstep').symm.trans halts)
              have hlater : ∀ y, Reference.run (j + 1 + y) r' = Reference.run (j + y) t :=
                fun y => by
                rw [Nat.add_right_comm, Reference.run_of_running hwhole]
              refine ⟨j + 1, Nat.succ_le_succ hj, ?_⟩
              rcases hdone with ⟨f, u, hfault⟩ | ⟨s', π'', hsame, harrives⟩
              · exact .inl ⟨f, u, (hlater 0).trans hfault⟩
              · exact .inr ⟨s', π'', fun y => (hlater y).trans (hsame y), harrives⟩
            · obtain ⟨n, hmem⟩ := hhalted rfl
              exact absurd rfl (endless _ hmem)

/-- While a piece runs by itself, the whole runs alongside, unless the machine is lost. -/
theorem Ready.runs_alongside (ready : m.Ready) (mirrors : Mirrors p m r) (beside : Beside F π r r')
    (all : F.part.template.code = F.code) (budget : Nat) :
    (∃ f n, Machine.run budget m = .error (.fault f) n) ∨
      Alongside (Proceeds F) (Reference.run budget r) (Reference.run budget r') := by
  induction budget generalizing m r r' p π with
  | zero => exact .inr (.ok ⟨rfl, .inl ⟨rfl, π, beside⟩⟩)
  | succ budget ih =>
      obtain ⟨a, outer, k, pre, l, post, footing⟩ := ready.footing mirrors
      have hinside : outer = [] → a.ip < F.code.length := by
        rintro rfl
        obtain ⟨rfl, -⟩ := beside.within footing
        have hreal := footing.typed.real l (by simp)
        rw [← all, ← footing.code, footing.ip, Listing.code_append, Listing.code_cons,
          List.length_append, List.length_append, Listing.size]
        omega
      have halong := Reference.step_alongside beside footing hinside
      have hends := ready.step
      have htracks := (step_tracks ready mirrors).conj ready.step
      cases hstep : Machine.step m with
      | error e n =>
          rw [hstep] at hends htracks
          generalize hpart : Reference.step r = x at halong htracks
          cases htracks with
          | fault => exact .inl ⟨_, n, bind_of_error hstep⟩
          | broken hbroken =>
              cases hends with
              | raised hfair => exact absurd hbroken hfair
          | raised =>
              refine .inr ?_
              rw [Reference.run_of_error hpart]
              generalize hwhole : Reference.step r' = y at halong
              cases halong with
              | fail h =>
                  rw [Reference.run_of_error hwhole]
                  exact .fail h
              | first h => exact .first h
              | second h =>
                  rw [Reference.run_of_error hwhole]
                  exact .second h
      | ok status m₁ =>
          obtain ⟨_, r₁, hstep', ⟨hsame, p', hmirrors⟩, hcontinues⟩ := htracks.right hstep
          subst hsame
          rw [hstep'] at halong
          generalize hwhole : Reference.step r' = y at halong
          cases halong with
          | second h =>
              refine .inr ?_
              rw [Reference.run_of_error hwhole]
              exact .second h
          | @ok _ _ status' t h =>
              obtain ⟨⟨rfl, hnext⟩, -⟩ := h
              rcases hnext with ⟨rfl, π', hbeside⟩ | ⟨rfl, hcommon⟩
              · rw [run_succ_of_running hstep, Reference.run_of_running hstep',
                  Reference.run_of_running hwhole]
                exact ih hcontinues hmirrors hbeside
              · refine .inr ?_
                rw [Reference.run_of_halted hstep', Reference.run_of_halted hwhole]
                exact .ok ⟨rfl, .inr ⟨rfl, hcommon⟩⟩

end Machine

end Lox
