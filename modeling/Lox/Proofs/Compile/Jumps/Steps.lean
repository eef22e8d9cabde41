import Lox.Proofs.Compile.Jumps.Targets

/-!
# Steps that take a survey

A step that takes a survey is the step without it, once the survey is forgotten. Besides, a survey
that is true of the compiler is so afterwards. This is said with the marks of all functions that are
being compiled: a step turns the marks before it into marks that depend on its answer.

A forward jump that is written becomes a pending one, and one that is given its target is pending no
longer. A loop leads back to a marked offset. Nothing else that the compiler does changes the marks
for longer than a statement, so expressions, statements and declarations are balanced.

## Main definitions

* `Compiler.Tracks` — steps with a survey and without it.
* `Compiler.Balanced` — steps that leave the marks as they found them.

## Main results

* `emitJump_tracks`, `patchJump_tracks`, `emitLoop_tracks` — jumps.
* `enterFunction_tracks`, `finishFunction_tracks`, `leaveFunction_tracks` — functions.
-/

namespace Lox

namespace Compiler

variable {α β : Type} {c c' : Compiler} {s s' : Survey} {K K' : Marks} {Ks : List Marks}

/-! ### Runs with a survey -/

section Runs

variable {x : SurveyM α} {f : α → SurveyM β} {a : α} {b : β}

/-- Two steps succeed when both of them do. -/
theorem survey_bind_ok_iff : (x >>= f).run s c = .ok (b, s') c' ↔
    ∃ a mid last, x.run s c = .ok (a, mid) last ∧ (f a).run mid last = .ok (b, s') c' := by
  rw [StateT.run_bind, bind_eq_ok_iff]
  constructor
  · rintro ⟨⟨a, mid⟩, last, hfirst, hrest⟩
    exact ⟨a, mid, last, hfirst, hrest⟩
  · rintro ⟨a, mid, last, hfirst, hrest⟩
    exact ⟨(a, mid), last, hfirst, hrest⟩

/-- A step without a survey succeeds as it does, and leaves the survey. -/
theorem survey_lift_ok_iff {y : CompileM α} :
    (liftM y : SurveyM α).run s c = .ok (a, s') c' ↔ y c = .ok a c' ∧ s' = s := by
  change (y >>= fun a => Pure.pure (a, s)) c = _ ↔ _
  rw [bind_eq_ok_iff]
  constructor
  · rintro ⟨_, _, hy, ⟨⟩⟩
    exact ⟨hy, rfl⟩
  · rintro ⟨hy, rfl⟩
    exact ⟨a, c', hy, rfl⟩

theorem survey_run_lift (y : CompileM α) (s : Survey) :
    (liftM y : SurveyM α).run s = y >>= fun a => Pure.pure (a, s) := rfl

theorem survey_run_look (s : Survey) :
    (getThe Compiler : SurveyM Compiler).run s = get >>= fun c => Pure.pure (c, s) := rfl

theorem survey_run_note (change : Survey → Survey) (s : Survey) :
    (Surveyed.note change).run s = Pure.pure ((), change s) := rfl

/-- Looking at the state without need. -/
theorem get_bind_const (y : CompileM α) : (get >>= fun _ => y : CompileM α) = y := rfl

theorem forget_survey_lift (y : CompileM α) (s : Survey) :
    Prod.fst <$> (liftM y : SurveyM α).run s = y := by
  rw [survey_run_lift]
  simp

theorem forget_survey_bind (x : SurveyM α) (f : α → SurveyM β) (s : Survey) :
    Prod.fst <$> (x >>= f).run s = x.run s >>= fun p => Prod.fst <$> (f p.1).run p.2 := by
  rw [StateT.run_bind, map_bind]

end Runs

/-! ### Steps with a survey -/

/-- A step with a survey that is the step without it otherwise, and that keeps the survey true. -/
structure Tracks (Ks : List Marks) (x : SurveyM α) (y : CompileM α) (Ks' : α → List Marks) :
    Prop where
  same : ∀ s, Prod.fst <$> x.run s = y
  kept : ∀ s c a s' c', s.Holds Ks c → x.run s c = .ok (a, s') c' → s'.Holds (Ks' a) c'

/-- A step that leaves the marks as it found them, whatever they are. -/
def Balanced (x : SurveyM α) (y : CompileM α) : Prop :=
  ∀ K Ks, Tracks (K :: Ks) x y fun _ => K :: Ks

end Compiler

namespace Survey.Holds

variable {s s' : Survey} {c c' : Compiler} {K K' : Marks} {Ks : List Marks}

/-- The marks of the function being compiled. -/
theorem own (holds : s.Holds (K :: Ks) c) : K.Fit c.code s.sites := by
  cases holds.layers with
  | cons fit _ => exact fit

/-- The marks of the functions around it. -/
theorem around (holds : s.Holds (K :: Ks) c) : Layers Ks c.outerCode s.outer := by
  cases holds.layers with
  | cons _ outer => exact outer

/-- The jumps of the function being compiled change, and its code. -/
theorem update (holds : s.Holds (K :: Ks) c) {sites : List JumpSite} (fit : K'.Fit c'.code sites)
    (outerCode : c'.outerCode = c.outerCode)
    (reported : c.reported.toList <+: c'.reported.toList)
    (told : ∀ site ∈ sites, site ∈ s.sites ∨ ∀ aim, site.aim = some aim →
      aim.after.reported.toList ⊆ c'.reported.toList) :
    Holds (K' :: Ks) { s with sites } c' := by
  have hold : ∀ site ∈ s.all, ∀ aim, site.aim = some aim →
      aim.after.reported.toList ⊆ c'.reported.toList := fun site hsite aim haim =>
    List.Subset.trans (holds.told site hsite aim haim) reported.subset
  refine ⟨.cons fit (outerCode ▸ holds.around), holds.finished, fun site hsite => ?_⟩
  simp only [all, List.mem_append, or_assoc] at hsite hold
  rcases hsite with hsite | hsite
  · rcases told site hsite with hknown | hnew
    · exact hold site (.inl hknown)
    · exact hnew
  · exact hold site (.inr hsite)

/-- A jump is written behind the others. -/
theorem add (holds : s.Holds (K :: Ks) c) (extended : c.Extended c') {site : JumpSite}
    (fit : K'.Fit c'.code (s.sites ++ [site]))
    (told : ∀ aim, site.aim = some aim → aim.after.reported.toList ⊆ c'.reported.toList) :
    Holds (K' :: Ks) (s.add site) c' := by
  refine holds.update fit extended.outerCode extended.reported fun other hother => ?_
  rcases List.mem_append.mp hother with hother | hother
  · exact .inl hother
  · obtain rfl := List.mem_singleton.mp hother
    exact .inr told

/-- Code is written behind. -/
theorem extend (holds : s.Holds Ks c) (extended : c.Extended c') : s.Holds Ks c' := by
  cases Ks with
  | nil => cases holds.layers
  | cons K Ks =>
      exact holds.update (holds.own.extend extended.size extended.same) extended.outerCode
        extended.reported fun _ hsite => .inl hsite

/-- Other offsets of the function being compiled are of interest. -/
theorem reach (holds : s.Holds (K :: Ks) c) {reached : List Nat}
    (within : ∀ offset ∈ reached, offset ≤ c.code.size) :
    s.Holds ({ K with reached } :: Ks) c :=
  holds.update (holds.own.reach within) rfl List.prefix_rfl fun _ hsite => .inl hsite

/-- The same compiler, and nothing that was not known. -/
theorem told_mono (holds : s.Holds Ks c) (fewer : s'.all ⊆ s.all)
    (reported : c'.reported = c.reported) : ∀ site ∈ s'.all, ∀ aim, site.aim = some aim →
      aim.after.reported.toList ⊆ c'.reported.toList :=
  fun site hsite aim haim => reported ▸ holds.told site (fewer hsite) aim haim

end Survey.Holds

namespace Compiler

variable {α β : Type} {c c' : Compiler} {s s' : Survey} {K K' : Marks} {Ks : List Marks}

namespace Tracks

variable {x x' : SurveyM α} {y y' : CompileM α} {Ks' Ks'' : α → List Marks}

/-- What a step does with a survey, it does without it. -/
theorem without (tracks : Tracks Ks x y Ks') {a : α} (run : x.run s c = .ok (a, s') c') :
    y c = .ok a c' := by
  rw [← tracks.same s, map_eq_pure_bind, bind_of_ok run]
  rfl

/-- A step that writes behind. -/
theorem lift (extending : Extends y) : Tracks Ks (liftM y) y fun _ => Ks := by
  refine ⟨forget_survey_lift y, fun s c a s' c' holds run => ?_⟩
  obtain ⟨hy, rfl⟩ := survey_lift_ok_iff.mp run
  exact holds.extend (extending c a c' hy)

/-- An answer for which the marks are right. -/
theorem answer (Ks' : α → List Marks) (a : α) :
    Tracks (Ks' a) (Pure.pure a) (Pure.pure a) Ks' := by
  refine ⟨fun _ => rfl, ?_⟩
  rintro s c _ _ _ holds ⟨⟩
  exact holds

theorem pure (a : α) : Tracks Ks (Pure.pure a) (Pure.pure a) fun _ => Ks :=
  .answer (fun _ => Ks) a

theorem bind {f : α → SurveyM β} {g : α → CompileM β} {Ks'' : β → List Marks}
    (first : Tracks Ks x y Ks') (rest : ∀ a, Tracks (Ks' a) (f a) (g a) Ks'') :
    Tracks Ks (x >>= f) (y >>= g) Ks'' := by
  refine ⟨fun s => ?_, fun s c b s' c' holds run => ?_⟩
  · rw [forget_survey_bind, ← first.same s, bind_map_left]
    exact bind_congr fun p => (rest p.1).same p.2
  · obtain ⟨a, mid, last, hfirst, hrest⟩ := survey_bind_ok_iff.mp run
    exact (rest a).kept mid last b s' c' (first.kept s c a mid last holds hfirst) hrest

/-- Looking at the state. -/
theorem read {f : Compiler → SurveyM α} {g : Compiler → CompileM α}
    (rest : ∀ c, Tracks Ks (f c) (g c) Ks') :
    Tracks Ks (Instrument.look >>= f) (get >>= g) Ks' := by
  have hlook : Tracks Ks (Instrument.look : SurveyM Compiler) get fun _ => Ks := by
    refine .lift ?_
    rintro c _ _ ⟨⟩
    exact .same_code rfl rfl rfl
  exact hlook.bind rest

theorem ite {p : Prop} [Decidable p] (yes : Tracks Ks x y Ks') (no : Tracks Ks x' y' Ks') :
    Tracks Ks (if p then x else x') (if p then y else y') Ks' := by
  split
  · exact yes
  · exact no

/-- Fewer offsets are of interest. -/
theorem forget {Js : List Marks} {K K' : α → Marks} (tracks : Tracks Js x y fun a => K a :: Ks)
    (pending : ∀ a, (K' a).pending = (K a).pending)
    (reached : ∀ a, (K' a).reached ⊆ (K a).reached) : Tracks Js x y fun a => K' a :: Ks := by
  refine ⟨tracks.same, fun s c a s' c' holds run => ?_⟩
  have hkept := tracks.kept s c a s' c' holds run
  have hreach := hkept.reach fun offset hoffset => hkept.own.reached offset (reached a hoffset)
  rw [← pending a] at hreach
  exact hreach

end Tracks

/-! ### Jumps -/

/-- The code has been reached to its end. -/
theorem codeSize_tracks : Tracks (K :: Ks) (liftM codeSize) codeSize
    fun start => { K with reached := start :: K.reached } :: Ks := by
  refine ⟨forget_survey_lift codeSize, fun s c start s' c' holds run => ?_⟩
  obtain ⟨hsize, rfl⟩ := survey_lift_ok_iff.mp run
  cases hsize
  exact holds.reach (List.forall_mem_cons.mpr ⟨Nat.le_refl _, holds.own.reached⟩)

/-- A forward jump waits for its target. -/
theorem emitJump_tracks {op : OpCode} (forward : op = .jump ∨ op = .jumpIfFalse) :
    Tracks (K :: Ks) (Surveyed.emitJump op) (emitJump op)
      fun p => { K with pending := p :: K.pending } :: Ks := by
  refine ⟨fun s => by simp [Surveyed.emitJump, survey_run_note], fun s c p s' c' holds run => ?_⟩
  obtain ⟨p', mid, last, hlift, hnote⟩ := survey_bind_ok_iff.mp run
  obtain ⟨hjump, rfl⟩ := survey_lift_ok_iff.mp hlift
  cases hnote
  have hextended := Extends.closed.emitJump op c _ c' hjump
  obtain ⟨rfl, hcode⟩ := emitJump_ok hjump
  have hfit := holds.own.extend hextended.size hextended.same
  have hplaced : JumpSite.Placed c'.code ⟨op, c.code.size + 1, none⟩ :=
    hcode ▸ JumpSite.Placed.waiting c.code _ _ forward
  exact holds.add hextended (hfit.wait hplaced holds.own.behind rfl) fun aim haim => by cases haim

/-- A pending jump is given its target. -/
theorem patchJump_tracks {p : Nat} (l₁ : List Nat) {l₂ reached : List Nat} :
    Tracks (⟨l₁ ++ p :: l₂, reached⟩ :: Ks) (Surveyed.patchJump p) (patchJump p)
      fun _ => ⟨l₁ ++ l₂, reached⟩ :: Ks := by
  refine ⟨fun s => ?_, fun s c u s' c' holds run => ?_⟩
  · simp only [Surveyed.patchJump, StateT.run_bind, survey_run_note, survey_run_look,
      survey_run_lift, bind_assoc, pure_bind, map_bind, map_pure, get_bind_const, bind_pure_unit]
  · obtain ⟨_, _, _, ⟨⟩, hrest⟩ := survey_bind_ok_iff.mp run
    obtain ⟨_, _, _, hlift, hnote⟩ := survey_bind_ok_iff.mp hrest
    obtain ⟨hpatch, rfl⟩ := survey_lift_ok_iff.mp hlift
    cases hnote
    obtain ⟨site, hsite, rfl, hnone⟩ := (holds.own.pending p).mp (by simp)
    have hplaced := holds.own.maps.placed site hsite
    -- a loop has a target from the beginning, so it is never pending
    have hforward : site.op ≠ .loop := by
      rcases hplaced.kind with h | h | ⟨-, h⟩
      · simp [h]
      · simp [h]
      · simp [hnone] at h
    have hexact := patchJump_exact hforward hplaced.size hpatch
    obtain ⟨houter, hreported⟩ := patchJump_frame hpatch
    obtain ⟨-, -, hsize⟩ := hexact.forward hforward
    refine holds.update
      (holds.own.lead hsite hsize hexact.others (hplaced.aimed hforward hexact)) houter hreported
      fun led hled => ?_
    obtain ⟨other, hother, rfl⟩ := List.mem_map.mp hled
    split
    · refine .inr ?_
      rintro _ ⟨⟩
      exact List.Subset.refl _
    · exact .inl hother

/-- A loop leads back to an offset that has been reached. -/
theorem emitLoop_tracks {target : Nat} (reached : target ∈ K.reached) :
    Tracks (K :: Ks) (Surveyed.emitLoop target) (emitLoop target) fun _ => K :: Ks := by
  refine ⟨fun s => ?_, fun s c u s' c' holds run => ?_⟩
  · simp only [Surveyed.emitLoop, StateT.run_bind, survey_run_note, survey_run_look,
      survey_run_lift, bind_assoc, pure_bind, map_bind, map_pure, get_bind_const, bind_pure_unit]
  · obtain ⟨_, _, _, ⟨⟩, hrest⟩ := survey_bind_ok_iff.mp run
    obtain ⟨_, _, _, hlift, hnote⟩ := survey_bind_ok_iff.mp hrest
    obtain ⟨hloop, rfl⟩ := survey_lift_ok_iff.mp hlift
    cases hnote
    have hextended := Extends.closed.emitLoop target c () c' hloop
    obtain ⟨high, low, hcode, -⟩ := emitLoop_ok hloop
    let aim : Aim := ⟨target, c, c'⟩
    let site : JumpSite := ⟨.loop, c.code.size + 1, some aim⟩
    have hexact : aim.Exact site :=
      emitLoop_exact (holds.own.reached target reached) rfl rfl hloop
    have hplaced : site.Placed c'.code := by
      refine ⟨Nat.succ_pos _, by simp [hcode, site], ?_, .inr (.inr ⟨rfl, rfl⟩), ?_, ?_⟩
      · rw [hcode]
        exact (getElem?_pushes c.code _ _ _).1
      · rintro _ ⟨⟩
        exact hexact
      · rintro _ ⟨⟩ hnear
        exact (hexact.near hnear).1
    have hfit := holds.own.extend hextended.size hextended.same
    refine holds.add hextended (hfit.add hplaced holds.own.behind rfl) ?_
    rintro _ ⟨⟩
    exact List.Subset.refl _

/-! ### Functions -/

/-- A function starts without jumps. -/
theorem enterFunction_tracks (name : Handle) :
    Tracks Ks (Surveyed.enterFunction name) (enterFunction name) fun _ => {} :: Ks := by
  refine ⟨fun s => by simp [Surveyed.enterFunction, survey_run_note], ?_⟩
  rintro s c _ _ _ holds ⟨⟩
  refine ⟨.cons (.nil _) holds.layers, holds.finished, holds.told_mono (fun site hsite => ?_) rfl⟩
  simpa [Survey.all, Survey.enter] using hsite

/-- Where no jump is pending, a function can be finished. -/
theorem finishFunction_tracks (none : K.pending = []) :
    Tracks (K :: Ks) Surveyed.finishFunction finishFunction fun _ => K :: Ks := by
  refine ⟨fun s => ?_, fun s c h s' c' holds run => ?_⟩
  · simp only [Surveyed.finishFunction, StateT.run_bind, survey_run_note, survey_run_look,
      survey_run_lift, StateT.run_pure, bind_assoc, pure_bind, map_bind, map_pure, get_bind_const,
      bind_pure]
  · obtain ⟨_, _, _, hlift, hrest⟩ := survey_bind_ok_iff.mp run
    obtain ⟨hfinish, rfl⟩ := survey_lift_ok_iff.mp hlift
    cases hrest
    have hkept := holds.extend (finishFunction_extends c h c' hfinish)
    refine ⟨hkept.layers, fun f hf => ?_, hkept.told_mono (fun site hsite => ?_) rfl⟩
    · rcases List.mem_append.mp hf with hf | hf
      · exact hkept.finished f hf
      · obtain rfl := List.mem_singleton.mp hf
        exact hkept.own.aimed none
    · simp only [Survey.all, Survey.finish, List.flatMap_append, List.mem_append] at hsite ⊢
      rcases hsite with hsite | hsite | hsite
      · exact .inl hsite
      · exact .inr hsite
      · exact .inl (.inl (by simpa using hsite))

/-- What has been compiled of the function around is as it was. -/
theorem leaveFunction_tracks : Tracks (K :: K' :: Ks) Surveyed.leaveFunction leaveFunction
    fun _ => K' :: Ks := by
  refine ⟨fun s => by simp [Surveyed.leaveFunction, survey_run_note], ?_⟩
  intro s c u s' c' holds run
  obtain ⟨_, mid, _, hlift, hnote⟩ := survey_bind_ok_iff.mp run
  obtain ⟨hleave, hmid⟩ := survey_lift_ok_iff.mp hlift
  subst hmid
  cases hnote
  have haround := holds.around
  rw [outerCode] at haround
  cases henclosing : c.enclosing with
  | nil =>
      rw [henclosing] at haround
      cases haround
  | cons d ds =>
      cases houter : mid.outer with
      | nil =>
          rw [henclosing, houter] at haround
          cases haround
      | cons sites outer =>
          rw [henclosing, houter] at haround
          simp only [leaveFunction, henclosing, modify_apply, EStateM.Result.ok.injEq] at hleave
          obtain ⟨-, rfl⟩ := hleave
          rw [Survey.leave, houter]
          refine ⟨haround, holds.finished, holds.told_mono (fun site hsite => ?_) rfl⟩
          simp only [Survey.all, houter, List.flatten_cons, List.mem_append] at hsite ⊢
          rcases hsite with (hsite | hsite) | hsite
          · exact .inl (.inr (.inl hsite))
          · exact .inl (.inr (.inr hsite))
          · exact .inr hsite

end Compiler

end Lox
