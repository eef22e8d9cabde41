import Lox.Proofs.Compile.Imitation
import Lox.Proofs.Compile.Logged
import Lox.Proofs.Compile.Reports

/-!
# What a step with a log keeps

A step with a log is the step without it, once the log is forgotten. Besides, no function ever holds
more than its limits allow, and what the log says agrees with what is reported: the complaints about
limits are those about the demands that go beyond them. Where nothing is reported, every cast is
exact and every demand is within its limit.

A demand that goes beyond its limit is either reported or withheld. The one exception is the
arguments of a call, of which only the first that is too many is reported. Those behind it are
withheld, since nothing inside of an expression ends a panic. So a step that is no *whole*
declaration keeps a panic going.

## Main definitions

* `Draft.Fits`, `Compiler.Fits` — no more than the limits allow.
* `Compiler.Kept` — the invariant, from one state to another.
* `Compiler.Plain`, `Compiler.Logs` — steps that keep it, without a log and with one.

## Main results

* `makeConstant_logs`, `addLocal_logs` — what is limited inside of one function.
-/

namespace Lox

/-- A cast keeps the number, and a demand is within its limit. -/
def Entry.Sound : Entry → Prop
  | cast number byte => byte.toNat = number
  | demand limit present _ _ => present < limit.most

/-- A draft holds no more than the limits allow. -/
structure Draft.Fits (d : Draft) : Prop where
  constants : d.chunk.constants.size ≤ 256
  locals : d.locals.length ≤ 256
  captures : d.captures.size ≤ 256
  arity : d.arity ≤ 255

namespace Compiler

variable {c c' c'' : Compiler} {α β : Type} {whole : Bool} {log log' : List Entry}

/-- No draft holds more than the limits allow. -/
def Fits (c : Compiler) : Prop := ∀ d ∈ c.draft :: c.enclosing, d.Fits

/-- What has been reported about limits. -/
def excesses (c : Compiler) : List Diagnostic := c.reported.toList.filter (·.issue.isLimit)

/-- What a step that writes a log keeps. -/
structure Kept (whole : Bool) (c : Compiler) (log : List Entry) (c' : Compiler) : Prop where
  fits : c'.Fits
  reported : c.reported.toList <+: c'.reported.toList
  excesses : c'.excesses = c.excesses ++ log.filterMap Entry.complaint?
  alarms : log.filterMap Entry.alarm? ⊆ c'.reported.toList
  sound : c'.reported.toList = [] → ∀ entry ∈ log, entry.Sound
  panicking : whole = false → c.panicking = true → c'.panicking = true

namespace Kept

/-- Nothing is written. -/
theorem unwritten (fits : c'.Fits) (reported : c.reported.toList <+: c'.reported.toList)
    (excesses : c'.excesses = c.excesses)
    (panicking : whole = false → c.panicking = true → c'.panicking = true) :
    Kept whole c [] c' :=
  ⟨fits, reported, excesses.trans (List.append_nil _).symm, List.nil_subset _,
    fun _ entry hentry => (by cases hentry), panicking⟩

/-- A state that reports the same. -/
theorem same (fits : c'.Fits) (alarm : c'.alarm = c.alarm)
    (diagnostics : c'.diagnostics = c.diagnostics) : Kept whole c [] c' := by
  have hreported : c'.reported = c.reported := by simp [Compiler.reported, alarm, diagnostics]
  refine .unwritten fits (hreported ▸ List.prefix_rfl) ?_ fun _ hpanicking => ?_
  · rw [Compiler.excesses, Compiler.excesses, hreported]
  · rwa [Compiler.panicking, alarm]

/-- Steps in a row. -/
theorem trans (first : Kept whole c log c') (second : Kept whole c' log' c'') :
    Kept whole c (log ++ log') c'' := by
  refine ⟨second.fits, first.reported.trans second.reported, ?_, ?_, fun hnone entry hentry => ?_,
    fun hwhole hpanicking => second.panicking hwhole (first.panicking hwhole hpanicking)⟩
  · rw [second.excesses, first.excesses, List.filterMap_append, List.append_assoc]
  · rw [List.filterMap_append]
    exact List.append_subset.mpr
      ⟨List.Subset.trans first.alarms second.reported.subset, second.alarms⟩
  · have hnone' : c'.reported.toList = [] := List.prefix_nil.mp (hnone ▸ second.reported)
    rcases List.mem_append.mp hentry with hentry | hentry
    · exact first.sound hnone' entry hentry
    · exact second.sound hnone entry hentry

/-- What keeps a panic going keeps the rest, too. -/
theorem loosen (kept : Kept whole c log c') : Kept true c log c' :=
  ⟨kept.fits, kept.reported, kept.excesses, kept.alarms, kept.sound, nofun⟩

end Kept

/-- A report changes none of the drafts. -/
theorem report_fits {token : Token} {issue : Issue} : (c.report token issue).Fits ↔ c.Fits := by
  unfold report
  split <;> exact Iff.rfl

/-- Something is wrong after a report. -/
theorem panicking_report (c : Compiler) (token : Token) (issue : Issue) :
    (c.report token issue).panicking = true := by
  unfold report
  split
  · assumption
  · rfl

/-- A panic has been reported. -/
theorem reported_ne_nil (panicking : c.panicking = true) : c.reported.toList ≠ [] := by
  obtain ⟨d, hd⟩ := Option.isSome_iff_exists.mp panicking
  exact List.ne_nil_of_mem (mem_reported_of_alarm hd)

/-- What a report adds to what has been reported about limits. -/
theorem excesses_report (c : Compiler) (token : Token) (issue : Issue) :
    (c.report token issue).excesses = c.excesses ++
      if c.panicking = false ∧ issue.isLimit = true then [.atToken token issue] else [] := by
  unfold report
  split
  · rename_i hpanicking
    simp [hpanicking]
  · rename_i hcalm
    have hnone : c.alarm = none := by simpa [Compiler.panicking] using hcalm
    rw [Bool.not_eq_true] at hcalm
    simp only [excesses, reported, hnone, hcalm, Array.toList_push, List.filter_append, true_and]
    congr 1
    cases hlimit : issue.isLimit <;> simp [Diagnostic.atToken, hlimit]

/-- A report about something else than a limit. -/
theorem Kept.report (fits : c.Fits) (token : Token) {issue : Issue}
    (other : issue.isLimit = false) : Kept whole c [] (c.report token issue) := by
  refine .unwritten (report_fits.mpr fits) (reported_report c token issue) ?_ fun _ _ =>
    panicking_report c token issue
  rw [excesses_report, other]
  simp

/-! ### Steps -/

/-- A step without a log that keeps the invariant. -/
def Plain (whole : Bool) (y : CompileM α) : Prop :=
  ∀ c a c', c.Fits → y c = .ok a c' → Kept whole c [] c'

/-- A step with a log that keeps the invariant, and that is a step without it otherwise. -/
structure Logs (whole : Bool) (x : LogM α) (y : CompileM α) : Prop where
  same : x.forget = y
  kept : ∀ c a log c', c.Fits → x.run c = .ok (a, log) c' → Kept whole c log c'

namespace Plain

variable {y : CompileM α}

/-- A change that has nothing to do with reports. -/
theorem change {f : Compiler → Compiler} (fits : ∀ c, c.Fits → (f c).Fits)
    (frame : ∀ c, (f c).alarm = c.alarm ∧ (f c).diagnostics = c.diagnostics) :
    Plain whole (modify f) := by
  rintro c _ _ hfits ⟨⟩
  exact .same (fits c hfits) (frame c).1 (frame c).2

/-- A change of the draft. -/
theorem draft {f : Draft → Draft} (fits : ∀ d, d.Fits → (f d).Fits) :
    Plain whole (modifyDraft f) := by
  refine .change (fun c hfits d hd => ?_) fun _ => ⟨rfl, rfl⟩
  rcases List.mem_cons.mp hd with rfl | hd
  · exact fits _ (hfits _ (List.mem_cons_self ..))
  · exact hfits d (List.mem_cons_of_mem _ hd)

/-- An operation of the heap. -/
theorem onHeap (frame : ∀ c a c', y c = .ok a c' → c' = { c with heap := c'.heap }) :
    Plain whole y := by
  intro c a c' fits run
  rw [frame c a c' run]
  exact .same fits rfl rfl

end Plain

/-! ### Runs with a log -/

section Runs

variable {x : LogM α} {f : α → LogM β} {a : α} {b : β}

/-- Steps with a log one after another. -/
theorem run_bind (x : LogM α) (f : α → LogM β) :
    (x >>= f).run = x.run >>= fun p => (fun q => (q.1, p.2 ++ q.2)) <$> (f p.1).run := rfl

/-- Forgetting the log step by step. -/
theorem forget_bind (x : LogM α) (f : α → LogM β) :
    (x >>= f).forget = x.forget >>= fun a => (f a).forget := by
  rw [LogM.forget, LogM.forget, run_bind, map_bind, bind_map_left]
  refine bind_congr fun p => ?_
  rw [Functor.map_map]
  rfl

theorem forget_lift (y : CompileM α) : (liftM y : LogM α).forget = y := by
  change Prod.fst <$> ((fun a => (a, [])) <$> y) = y
  rw [Functor.map_map]
  exact id_map y

/-- What a step does that succeeds with a log, it does without one. -/
theorem forget_of_ok (run : x.run c = .ok (a, log) c') : x.forget c = .ok a c' := by
  rw [LogM.forget, map_eq_pure_bind, bind_of_ok run]
  rfl

theorem run_lift_of_ok {y : CompileM α} (run : y c = .ok a c') :
    (liftM y : LogM α).run c = .ok (a, []) c' := by
  change ((fun a => (a, [])) <$> y) c = _
  rw [map_eq_pure_bind, bind_of_ok run]
  rfl

/-- Two steps that both succeed, with what both of them write. -/
theorem run_bind_of_ok (first : x.run c = .ok (a, log) c')
    (second : (f a).run c' = .ok (b, log') c'') :
    (x >>= f).run c = .ok (b, log ++ log') c'' := by
  rw [run_bind, bind_of_ok first, map_eq_pure_bind, bind_of_ok second]
  rfl

/-- Looking at the state writes nothing. -/
theorem run_read (f : Compiler → LogM α) (c : Compiler) : (get >>= f).run c = (f c).run c :=
  congrFun (id_map (f c).run) c

/-- Two steps succeed when both of them do. -/
theorem run_bind_ok_iff : (x >>= f).run c = .ok (b, log) c' ↔ ∃ a before mid after,
    x.run c = .ok (a, before) mid ∧ (f a).run mid = .ok (b, after) c' ∧ log = before ++ after := by
  constructor
  · intro run
    rw [run_bind] at run
    obtain ⟨⟨a, before⟩, mid, hfirst, hrest⟩ := bind_eq_ok_iff.mp run
    rw [map_eq_pure_bind] at hrest
    obtain ⟨⟨b', after⟩, last, hrest, hpure⟩ := bind_eq_ok_iff.mp hrest
    cases hpure
    exact ⟨a, before, mid, after, hfirst, hrest, rfl⟩
  · rintro ⟨a, before, mid, after, hfirst, hrest, rfl⟩
    exact run_bind_of_ok hfirst hrest

end Runs

/-! ### Steps with a log -/

namespace Logs

/-- A step without a log. -/
theorem lift {y : CompileM α} (plain : Plain whole y) : Logs whole (liftM y) y := by
  refine ⟨forget_lift y, fun c a log c' fits run => ?_⟩
  change ((fun a => (a, [])) <$> y) c = _ at run
  rw [map_eq_pure_bind] at run
  obtain ⟨b, mid, hy, hpure⟩ := bind_eq_ok_iff.mp run
  cases hpure
  exact plain c _ _ fits hy

theorem pure (a : α) : Logs whole (Pure.pure a) (Pure.pure a) := by
  refine ⟨rfl, ?_⟩
  rintro c _ _ _ fits ⟨⟩
  exact .same fits rfl rfl

theorem bind {x : LogM α} {y : CompileM α} {f : α → LogM β} {g : α → CompileM β}
    (first : Logs whole x y) (rest : ∀ a, Logs whole (f a) (g a)) :
    Logs whole (x >>= f) (y >>= g) := by
  refine ⟨?_, fun c b log c' fits run => ?_⟩
  · rw [forget_bind, first.same]
    exact bind_congr fun a => (rest a).same
  · obtain ⟨a, before, mid, after, hfirst, hrest, rfl⟩ := run_bind_ok_iff.mp run
    have hkept := first.kept c a before mid fits hfirst
    exact hkept.trans ((rest a).kept mid b after c' hkept.fits hrest)

/-- Looking at the state. -/
theorem read {f : Compiler → LogM α} {g : Compiler → CompileM α}
    (rest : ∀ c, Logs whole (f c) (g c)) : Logs whole (get >>= f) (get >>= g) :=
  .bind (.lift fun _ _ _ fits run => by
    cases run
    exact .same fits rfl rfl) rest

/-- A step that keeps a panic going is one that need not. -/
theorem loosen {x : LogM α} {y : CompileM α} (logs : Logs whole x y) : Logs true x y :=
  ⟨logs.same, fun c a log c' fits run => (logs.kept c a log c' fits run).loosen⟩

end Logs

/-! ### Steps in one state -/

section

variable {x : LogM α} {a : α}

/-- A step with a log and one without it, in one state. -/
structure LogsAt (whole : Bool) (c : Compiler) (x : LogM α) (y : CompileM α) : Prop where
  same : x.forget c = y c
  kept : c.Fits → ∀ a log c', x.run c = .ok (a, log) c' → Kept whole c log c'

theorem Logs.at {y : CompileM α} (logs : Logs whole x y) (c : Compiler) : LogsAt whole c x y :=
  ⟨congrFun logs.same c, fun fits a log c' run => logs.kept c a log c' fits run⟩

theorem Logs.of_at {y : CompileM α} (each : ∀ c, LogsAt whole c x y) : Logs whole x y :=
  ⟨funext fun c => (each c).same, fun c a log c' fits run => (each c).kept fits a log c' run⟩

/-- Looking at the state. -/
theorem LogsAt.read {f : Compiler → LogM α} {g : Compiler → CompileM α}
    (rest : LogsAt whole c (f c) (g c)) : LogsAt whole c (get >>= f) (get >>= g) := by
  refine ⟨?_, fun fits a log c' run => rest.kept fits a log c' ((run_read f c).symm.trans run)⟩
  change EStateM.map Prod.fst (get >>= f).run c = g c c
  rw [EStateM.map, run_read]
  exact rest.same

/-- A step that succeeds, and keeps the invariant. -/
theorem LogsAt.of_run {y : CompileM α} (hx : x.run c = .ok (a, log) c') (hy : y c = .ok a c')
    (kept : c.Fits → Kept whole c log c') : LogsAt whole c x y := by
  refine ⟨?_, fun fits _ _ _ run => ?_⟩
  · rw [forget_of_ok hx, hy]
  · cases hx.symm.trans run
    exact kept fits

/-- A step that succeeds in every state, and keeps the invariant. -/
theorem Logs.of_run {y : CompileM α} (each : ∀ c, ∃ a log c', x.run c = .ok (a, log) c' ∧
    y c = .ok a c' ∧ (c.Fits → Kept whole c log c')) : Logs whole x y := by
  refine .of_at fun c => ?_
  obtain ⟨a, log, c', hx, hy, hkept⟩ := each c
  exact .of_run hx hy hkept

end

/-! ### Entries -/

/-- A line of the log. -/
theorem Kept.entry {entry : Entry} (fits : c'.Fits)
    (reported : c.reported.toList <+: c'.reported.toList)
    (excesses : c'.excesses = c.excesses ++ entry.complaint?.toList)
    (alarm : ∀ d, entry.alarm? = some d → d ∈ c'.reported.toList)
    (sound : c'.reported.toList = [] → entry.Sound)
    (panicking : c.panicking = true → c'.panicking = true) : Kept whole c [entry] c' := by
  refine ⟨fits, reported, ?_, fun d hd => ?_, fun hnone entry' hentry => ?_, fun _ => panicking⟩
  · rw [excesses]
    cases h : entry.complaint? <;> simp [h]
  · obtain ⟨entry', hentry, halarm⟩ := List.mem_filterMap.mp hd
    obtain rfl := List.mem_singleton.mp hentry
    exact alarm d halarm
  · obtain rfl := List.mem_singleton.mp hentry
    exact sound hnone

/-- A cast that keeps the number, or that is made when something has been reported. -/
theorem Kept.cast (fits : c.Fits) {number : Nat} {byte : UInt8}
    (exact : c.reported.toList = [] → byte.toNat = number) :
    Kept whole c [.cast number byte] c :=
  .entry fits List.prefix_rfl (List.append_nil _).symm nofun exact id

section Demands

variable {limit : Limit} {present : Nat}

/-- A demand within its limit. -/
theorem Kept.within (fits : c.Fits) (token : Token) (within : present < limit.most) :
    Kept whole c [.demand limit present token c.alarm] c := by
  refine .entry fits List.prefix_rfl ?_ (fun d hd => mem_reported_of_alarm hd) (fun _ => within) id
  simp [Entry.complaint?, Nat.not_le.mpr within]

/-- A demand that is withheld. -/
theorem Kept.withheld (fits : c.Fits) (token : Token) (panicking : c.panicking = true) :
    Kept whole c [.demand limit present token c.alarm] c := by
  refine .entry fits List.prefix_rfl ?_ (fun d hd => mem_reported_of_alarm hd)
    (fun hnone => absurd hnone (reported_ne_nil panicking)) id
  have hloud : c.alarm.isNone = false := by simpa [Compiler.panicking] using panicking
  simp [Entry.complaint?, hloud]

/-- A demand beyond its limit is reported, unless it is withheld. -/
theorem Kept.beyond (fits : c.Fits) (token : Token) (beyond : limit.most ≤ present) :
    Kept whole c [.demand limit present token c.alarm] (c.report token limit.issue) := by
  have hlimit : limit.issue.isLimit = true := by cases limit <;> rfl
  have hreported := reported_report c token limit.issue
  refine .entry (report_fits.mpr fits) hreported ?_
    (fun d hd => hreported.subset (mem_reported_of_alarm hd))
    (fun hnone => absurd hnone (reported_ne_nil (panicking_report c token _)))
    fun _ => panicking_report c token _
  rw [excesses_report, hlimit]
  cases halarm : c.alarm <;> simp [Entry.complaint?, Compiler.panicking, beyond, halarm]

end Demands

/-- A number below 256 is kept by a cast. -/
theorem toNat_ofNat_of_lt {number : Nat} (small : number < 256) :
    (UInt8.ofNat number).toNat = number := by
  rw [UInt8.toNat_ofNat']
  exact Nat.mod_eq_of_lt small

/-! ### The smallest steps -/

/-- A report about something else than a limit. -/
theorem report_plain {token : Compiler → Token} {issue : Issue} (other : issue.isLimit = false) :
    Plain whole (modify fun c => c.report (token c) issue) := by
  rintro c _ _ fits ⟨⟩
  exact .report fits (token c) other

/-- Malformed tokens are reported on the way to the next one. -/
theorem pull_kept (fits : c.Fits) (pending : List Token) : Kept whole c [] (c.pull pending) := by
  induction pending generalizing c with
  | nil => exact .same fits rfl rfl
  | cons t pending ih =>
      unfold pull
      split
      · exact (Kept.report fits t rfl).trans (ih (report_fits.mpr fits))
      · exact .same fits rfl rfl

theorem advance_plain : Plain whole advance := by
  rintro c _ _ fits ⟨⟩
  have hprevious : Kept whole c [] { c with previous := c.current } := .same fits rfl rfl
  exact hprevious.trans (pull_kept hprevious.fits _)

theorem emitByte_plain (byte : UInt8) : Plain whole (emitByte byte) := by
  refine .change (fun c fits d hd => ?_) fun _ => ⟨rfl, rfl⟩
  rcases List.mem_cons.mp hd with rfl | hd
  · have := fits _ (List.mem_cons_self ..)
    exact ⟨this.constants, this.locals, this.captures, this.arity⟩
  · exact fits d (List.mem_cons_of_mem _ hd)

theorem intern_plain (text : String) : Plain whole (intern text) := by
  refine .onHeap fun c h c' run => ?_
  unfold intern at run
  split at run <;> cases run
  rfl

/-- Sequences of steps that keep the invariant keep it. -/
theorem Plain.closed : Closed fun _ => Plain whole where
  pure _ := by
    rintro c _ _ fits ⟨⟩
    exact .same fits rfl rfl
  throw _ := by
    rintro c _ _ _ ⟨⟩
  bind first rest := by
    intro c b c' fits run
    obtain ⟨a, mid, hfirst, hrest⟩ := bind_eq_ok_iff.mp run
    have hkept := first c a mid fits hfirst
    exact hkept.trans (rest a mid b c' hkept.fits hrest)
  read _ rest := fun c a c' fits run => rest c c a c' fits run
  advance := advance_plain
  complain other := report_plain other
  complainAhead other := report_plain other
  emitByte := emitByte_plain
  intern := intern_plain
  modifyDraft chunk locals captures arity := .draft fun d fits =>
    ⟨chunk d ▸ fits.constants, Nat.le_trans (locals d) fits.locals, captures d ▸ fits.captures,
      arity d ▸ fits.arity⟩

/-- Ending a panic keeps what has been reported. -/
theorem synchronize_plain : Plain true synchronize := by
  refine Plain.closed.synchronize ?_
  rintro c _ _ fits ⟨⟩
  exact .unwritten fits List.prefix_rfl rfl nofun

/-! ### Jumps and functions -/

theorem patchJump_plain (operand : Nat) : Plain whole (patchJump operand) :=
  Plain.closed.patchJump
    (fun _ _ => .draft fun _ fits =>
      ⟨fits.constants, fits.locals, fits.captures, fits.arity⟩) operand

theorem finishFunction_plain : Plain whole finishFunction := by
  refine Plain.closed.bind Plain.closed.emitReturn fun _ => .onHeap fun c h c' run => ?_
  split at run <;> cases run
  rfl

/-- A function starts with no more than the local that holds it. -/
theorem enterFunction_plain (name : Handle) : Plain whole (enterFunction name) := by
  refine .change (fun c fits d hd => ?_) fun _ => ⟨rfl, rfl⟩
  rcases List.mem_cons.mp hd with rfl | hd
  · exact ⟨Nat.zero_le _, show 1 ≤ 256 by decide, Nat.zero_le _, Nat.zero_le _⟩
  · exact fits d hd

theorem leaveFunction_plain : Plain whole leaveFunction := by
  refine .change (fun c fits => ?_) fun c => ?_
  · unfold Fits at fits ⊢
    cases hout : c.enclosing with
    | nil => simpa [hout] using fits
    | cons d ds => exact fun e he => fits e (List.mem_cons_of_mem _ (hout ▸ he))
  · cases c.enclosing <;> exact ⟨rfl, rfl⟩

/-- Neither jumps nor functions are limited. -/
theorem logger_jumps : ImitatesJumps logger fun _ => Logs whole where
  emitJump op := .lift (Plain.closed.emitJump op)
  patchJump operand := .lift (patchJump_plain operand)
  emitLoop target := .lift (Plain.closed.emitLoop target)
  enterFunction name := .lift (enterFunction_plain name)
  finishFunction := .lift finishFunction_plain
  leaveFunction := .lift leaveFunction_plain

/-! ### Constants and locals -/

/-- Another draft, about which nothing is reported. -/
theorem Kept.withDraft {d : Draft} (fits : c.Fits) (draft : d.Fits) :
    Kept whole c [] { c with draft := d } := by
  refine .same (fun e he => ?_) rfl rfl
  rcases List.mem_cons.mp he with rfl | he
  · exact draft
  · exact fits e (List.mem_cons_of_mem _ he)

theorem makeConstant_logs (value : Value) :
    Logs whole (Logged.makeConstant value) (makeConstant value) := by
  refine .of_run fun c => ?_
  by_cases hroom : c.draft.chunk.constants.size < 256
  · have hlimit : c.draft.chunk.constants.size < Chunk.maxConstants := hroom
    refine ⟨UInt8.ofNat c.draft.chunk.constants.size,
      [.demand .constants c.draft.chunk.constants.size c.previous c.alarm,
        .cast c.draft.chunk.constants.size (UInt8.ofNat c.draft.chunk.constants.size)],
      { c with draft := { c.draft with chunk := { c.draft.chunk with
        constants := c.draft.chunk.constants.push value } } }, ?_, ?_, fun fits => ?_⟩
    · rw [Logged.makeConstant, run_read]
      dsimp only
      rw [if_pos hlimit]
      rfl
    · rw [makeConstant, Chunk.addConstant?, if_pos hlimit]
    · have hdraft := fits _ (List.mem_cons_self ..)
      have hpushed : Kept whole c [] { c with draft := { c.draft with chunk := { c.draft.chunk with
          constants := c.draft.chunk.constants.push value } } } :=
        .withDraft fits ⟨by rw [Array.size_push]; exact hroom, hdraft.locals, hdraft.captures,
          hdraft.arity⟩
      exact (Kept.within fits c.previous hroom).trans
        (hpushed.trans (.cast hpushed.fits fun _ => toNat_ofNat_of_lt hroom))
  · have hlimit : ¬ c.draft.chunk.constants.size < Chunk.maxConstants := hroom
    refine ⟨0, [.demand .constants c.draft.chunk.constants.size c.previous c.alarm],
      c.report c.previous .tooManyConstants, ?_, ?_, fun fits => ?_⟩
    · rw [Logged.makeConstant, run_read]
      dsimp only
      rw [if_neg hlimit]
      rfl
    · rw [makeConstant, Chunk.addConstant?, if_neg hlimit]
    · exact .beyond fits c.previous (Nat.le_of_not_lt hroom)

theorem nameConstant_logs (name : String) :
    Logs whole (Logged.nameConstant name) (nameConstant name) :=
  .bind (.lift (intern_plain name)) fun _ => makeConstant_logs _

theorem addLocal_logs (name : String) : Logs whole (Logged.addLocal name) (addLocal name) := by
  refine .of_run fun c => ?_
  by_cases hfull : c.draft.locals.length = 256
  · have hrun : addLocal name c = .ok () (c.report c.previous .tooManyLocals) := by
      rw [addLocal, bind_of_ok (get_apply c), if_pos (show _ = Draft.maxLocals from hfull)]
      rfl
    refine ⟨(), [.demand .locals c.draft.locals.length c.previous c.alarm], _, ?_, hrun,
      fun fits => .beyond fits c.previous (Nat.le_of_eq hfull.symm)⟩
    rw [Logged.addLocal, run_read]
    exact run_bind_of_ok rfl (run_lift_of_ok hrun)
  · have hrun : addLocal name c = .ok () { c with draft := { c.draft with
        locals := ⟨name, none, false⟩ :: c.draft.locals } } := by
      rw [addLocal, bind_of_ok (get_apply c), if_neg (show ¬ _ = Draft.maxLocals from hfull)]
      rfl
    refine ⟨(), [.demand .locals c.draft.locals.length c.previous c.alarm], _, ?_, hrun,
      fun fits => ?_⟩
    · rw [Logged.addLocal, run_read]
      exact run_bind_of_ok rfl (run_lift_of_ok hrun)
    · have hdraft := fits _ (List.mem_cons_self ..)
      have hroom : c.draft.locals.length < 256 := Nat.lt_of_le_of_ne hdraft.locals hfull
      exact (Kept.within fits c.previous hroom).trans
        (.withDraft fits ⟨hdraft.constants, hroom, hdraft.captures, hdraft.arity⟩)

end Compiler

end Lox
