import Lox.Proofs.Heap.Ledger

/-!
# The threshold of collections

A collection sets the threshold for the next one: the bytes that it leaves, times the growth factor.
A factor is at least one, so the threshold is never below the bytes in use, whatever happens, and
outside stress the next collection waits until more bytes are charged than the last one left.

The product is the one place where the arithmetic of a collection may leave the machine word. The
factor has no upper bound, so it does for large factors, and then the collection faults.

## Main definitions

* `Rearmed`, `Overdrawn` — what a collection does to the figures.
* `Gauge`, `Gauge.perform` — a heap with the bytes that its last collection left.
* `Gauge.Set` — the figures are as the last collection has set them.

## Main results

* `Gauge.foldlM_set` — the figures after a history.
* `threshold_paces` — when a collection runs, and when it faults.
* `growth_overflows` — a factor that the host may set, and a heap that it is too large for.
-/

namespace Lox.Heap

variable {heap heap' : Heap} {h : Handle} {roots : List Handle} {o : Object} {policy : Policy}

/-! ### One collection -/

/-- What a collection does to the figures that decide when the next one runs. -/
structure Rearmed (heap heap' : Heap) : Prop where
  policy : heap'.policy = heap.policy
  bytes : heap'.bytes ≤ heap.bytes
  threshold : heap'.threshold = heap'.bytes * heap.policy.growth
  fits : heap'.threshold ≤ maxWord
  counted : heap'.tally.collections = heap.tally.collections + 1

/-- What is left of a heap when a collection cannot set the threshold. -/
structure Overdrawn (heap heap' : Heap) : Prop where
  bytes : heap'.bytes ≤ heap.bytes
  excess : maxWord < heap'.bytes * heap.policy.growth

/-- Marking does not overflow. -/
theorem markPhase_ne_overflow (orderly : heap.Orderly) :
    (do roots.forM mark; trace) heap ≠ .error .overflow heap' := by
  have inv := orderly.tricolor roots
  have hroot : ∀ g ∈ roots, heap.Reaches (roots ++ heap.gray) g :=
    fun g hg => .root (by simp [hg])
  intro run
  rcases inv.forM_mark hroot with ⟨rooted, hroots, hinv, -⟩ | ⟨_, hroots, -⟩
  · rw [bind_of_ok hroots] at run
    rcases traceWithin_spec hinv (work_le rooted) with ⟨_, htrace, -⟩ | ⟨_, htrace, -⟩
    · cases htrace.symm.trans run
    · cases htrace.symm.trans run
  · rw [bind_of_error hroots] at run
    cases run

/-- A collection marks, sweeps and sets the threshold. -/
theorem collect_eq (roots : List Handle) : collect roots = (do
    (do roots.forM mark; trace)
    modify fun heap => heap.forgetStrings.sweep
    rearm) := by
  rw [collect, bind_assoc]

/-- A collection sets the threshold, or what it leaves is too much. -/
theorem collect_paces (orderly : heap.Orderly) (roots : List Handle) :
    (∀ heap', collect roots heap = .ok () heap' → Rearmed heap heap') ∧
      ∀ heap', collect roots heap = .error .overflow heap' → Overdrawn heap heap' := by
  rw [collect_eq]
  cases hmarked : (do roots.forM mark; trace) heap with
  | error f mid =>
      rw [bind_of_error hmarked]
      refine ⟨fun heap' run => (by cases run), fun heap' run => ?_⟩
      cases run
      exact absurd hmarked (markPhase_ne_overflow orderly)
  | ok _ traced =>
      have same := (remarked_of_markPhase hmarked).rest
      have hpolicy : traced.policy = heap.policy := by rw [same]
      have hbytes : traced.bytes = heap.bytes := by rw [same]
      have htally : traced.tally = heap.tally := by rw [same]
      have hless : traced.bytes - traced.forgetStrings.doomedBytes ≤ heap.bytes :=
        hbytes ▸ Nat.sub_le _ _
      rw [bind_of_ok hmarked, bind_of_ok (modify_apply _ _)]
      dsimp only [rearm]
      split
      · rename_i hover
        refine ⟨fun heap' run => (by cases run), fun heap' run => ?_⟩
        cases run
        exact ⟨hless, hpolicy ▸ hover⟩
      · rename_i hfits
        refine ⟨fun heap' run => ?_, fun heap' run => (by cases run)⟩
        cases run
        exact ⟨hpolicy, hless, congrArg (_ * ·.growth) hpolicy, Nat.le_of_not_lt hfits,
          congrArg (·.collections + 1) htally⟩

/-! ### One operation -/

/-- What an operation does to the figures. -/
inductive Paced (heap : Heap) (size : Nat) (heap' : Heap) : Prop
  /-- No collection runs. -/
  | spared (policy : heap'.policy = heap.policy) (bytes : heap'.bytes = heap.bytes + size)
      (threshold : heap'.threshold = heap.threshold)
      (uncounted : heap'.tally.collections = heap.tally.collections)
      (within : heap.bytes ≤ heap.threshold → heap'.bytes ≤ heap.threshold)
  /-- A collection runs when the bytes are charged. -/
  | collected (rearmed : Rearmed (heap.charge size) heap')

/-- Placing an object changes none of the figures. -/
theorem place_figures {size : Nat} (run : place o size heap = .ok h heap') :
    heap'.policy = heap.policy ∧ heap'.bytes = heap.bytes ∧ heap'.threshold = heap.threshold ∧
      heap'.tally = heap.tally := by
  unfold place at run
  split at run <;> cases run <;> exact ⟨rfl, rfl, rfl, rfl⟩

/-- An allocation collects if it is due. -/
theorem paced_of_allocate (orderly : heap.Orderly) (run : allocate o roots heap = .ok h heap') :
    Paced heap o.size heap' ∧ (heap'.tally.collections ≠ heap.tally.collections →
      (heap.charge o.size).isDue) := by
  have hcharged : (heap.charge o.size).Orderly := orderly.congr rfl rfl rfl rfl
  unfold allocate at run
  rw [bind_of_ok (modify_apply _ heap), bind_of_ok (get_apply _)] at run
  by_cases due : (heap.charge o.size).isDue
  · rw [if_pos due] at run
    obtain ⟨⟨⟩, mid, hcollect, hplace⟩ := bind_eq_ok_iff.mp run
    obtain ⟨hpolicy, hbytes, hthreshold, hfits, hcounted⟩ :=
      (collect_paces hcharged roots).1 mid hcollect
    obtain ⟨hpolicy', hbytes', hthreshold', htally'⟩ := place_figures hplace
    refine ⟨.collected ⟨hpolicy'.trans hpolicy, hbytes'.le.trans hbytes, ?_, ?_, ?_⟩, fun _ => due⟩
    · rw [hthreshold', hbytes', hthreshold]
    · rw [hthreshold']
      exact hfits
    · rw [htally', hcounted]
  · rw [if_neg due] at run
    obtain ⟨hpolicy, hbytes, hthreshold, htally⟩ := place_figures run
    refine ⟨.spared hpolicy hbytes hthreshold (congrArg _ htally) fun _ => ?_,
      fun hcounted => absurd (congrArg _ htally) hcounted⟩
    simp only [isDue, Bool.or_eq_true, decide_eq_true_eq, not_or, Nat.not_lt] at due
    exact hbytes.le.trans due.2

/-- An allocation faults only if a collection was due and what it left is too much. -/
theorem overdrawn_of_allocate (orderly : heap.Orderly)
    (run : allocate o roots heap = .error .overflow heap') :
    Overdrawn (heap.charge o.size) heap' ∧ (heap.charge o.size).isDue := by
  have hcharged : (heap.charge o.size).Orderly := orderly.congr rfl rfl rfl rfl
  unfold allocate at run
  rw [bind_of_ok (modify_apply _ heap), bind_of_ok (get_apply _)] at run
  have hplace : ∀ {mid}, mid.Orderly → place o o.size mid ≠ .error .overflow heap' := by
    intro mid hmid herror
    obtain ⟨_, _, hok, -⟩ := place_spec hmid o o.size
    cases hok.symm.trans herror
  by_cases due : (heap.charge o.size).isDue
  · rw [if_pos due] at run
    cases hcollect : collect roots (heap.charge o.size) with
    | error f mid =>
        rw [bind_of_error hcollect] at run
        cases run
        exact ⟨(collect_paces hcharged roots).2 _ hcollect, due⟩
    | ok _ mid =>
        rw [bind_of_ok hcollect] at run
        exact absurd run (hplace (collected_of_ok hcharged hcollect).orderly)
  · rw [if_neg due] at run
    exact absurd run (hplace hcharged)

/-- Every effect keeps the figures, or a collection sets them. -/
theorem Effect.paced {made? : Option Object} (effect : Effect heap made? heap')
    (orderly : heap.Orderly) : Paced heap (made?.elim 0 Object.size) heap' := by
  cases effect with
  | allocated run => exact (paced_of_allocate orderly run).1
  | enlisted run =>
      cases (paced_of_allocate orderly run).1 with
      | spared policy bytes threshold uncounted within =>
          exact .spared policy bytes threshold uncounted within
      | collected rearmed =>
          exact .collected ⟨rearmed.policy, rearmed.bytes, rearmed.threshold, rearmed.fits,
            rearmed.counted⟩
  | found | edited => exact .spared rfl rfl rfl rfl id
  | marked run =>
      have same := (remarked_of_mark run).rest
      have hbytes : heap'.bytes = heap.bytes := by rw [same]
      exact .spared (by rw [same]) hbytes (by rw [same]) (by rw [same]) hbytes.le.trans
  | collected run =>
      obtain ⟨hpolicy, hbytes, hthreshold, hfits, hcounted⟩ := (collect_paces orderly _).1 _ run
      exact .collected ⟨hpolicy, hbytes, hthreshold, hfits, hcounted⟩

/-! ### Histories -/

/-- A heap, with the bytes that its last collection left. -/
structure Gauge where
  /-- The heap. -/
  heap : Heap
  /-- The bytes in use when the last collection was done, if there has been one. -/
  left : Option Nat := none

/-- Does an operation, and takes down what a collection leaves. -/
def Gauge.perform (gauge : Gauge) (op : Operation) : Except Fault Gauge :=
  match op.run gauge.heap with
  | .error fault _ => .error fault
  | .ok () heap =>
    if heap.tally.collections = gauge.heap.tally.collections then .ok { gauge with heap }
    else .ok { heap, left := some heap.bytes }

/-- The figures are as the last collection has set them. -/
structure Gauge.Set (policy : Policy) (gauge : Gauge) : Prop where
  orderly : gauge.heap.Orderly
  setting : gauge.heap.policy = policy
  within : gauge.heap.bytes ≤ gauge.heap.threshold
  threshold : gauge.heap.threshold = gauge.left.elim policy.threshold (· * policy.growth)

/-- The threshold is not below what the last collection left. -/
theorem Gauge.Set.level_le {gauge : Gauge} (set : gauge.Set policy) (grows : 0 < policy.growth) :
    gauge.left.getD policy.threshold ≤ gauge.heap.threshold := by
  rw [set.threshold]
  cases gauge.left with
  | none => exact Nat.le_refl _
  | some live => exact Nat.le_mul_of_pos_right live grows

/-- Every operation leaves the figures set. -/
theorem Gauge.perform_set {gauge gauge' : Gauge} {op : Operation} (set : gauge.Set policy)
    (grows : 0 < policy.growth) (run : gauge.perform op = .ok gauge') : gauge'.Set policy := by
  unfold Gauge.perform at run
  split at run
  · cases run
  · rename_i heap hrun
    have effect := op.effect hrun
    have orderly := effect.orderly set.orderly
    cases effect.paced set.orderly with
    | spared hpolicy hbytes hthreshold huncounted hwithin =>
        rw [if_pos huncounted] at run
        cases run
        exact ⟨orderly, hpolicy.trans set.setting, hthreshold ▸ hwithin set.within,
          hthreshold.trans set.threshold⟩
    | collected rearmed =>
        have hcounted : heap.tally.collections ≠ gauge.heap.tally.collections := by
          rw [rearmed.counted]
          exact Nat.succ_ne_self _
        rw [if_neg hcounted] at run
        cases run
        have hthreshold : heap.threshold = heap.bytes * policy.growth :=
          set.setting ▸ rearmed.threshold
        exact ⟨orderly, rearmed.policy.trans set.setting,
          hthreshold ▸ Nat.le_mul_of_pos_right _ grows, hthreshold⟩

/-- The figures are set after every history. -/
theorem Gauge.foldlM_set {ops : List Operation} {gauge gauge' : Gauge} (set : gauge.Set policy)
    (grows : 0 < policy.growth) (run : ops.foldlM Gauge.perform gauge = .ok gauge') :
    gauge'.Set policy := by
  induction ops generalizing gauge with
  | nil =>
      cases run
      exact set
  | cons op ops ih =>
      rw [List.foldlM_cons] at run
      cases hop : gauge.perform op with
      | error fault =>
          rw [hop] at run
          cases run
      | ok next =>
          rw [hop] at run
          exact ih (Gauge.perform_set set grows hop) run

/-- After every history, the bytes in use are within the threshold, and the threshold is what the
last collection left, times the growth factor. So an allocation stays within it, too, and outside
stress it collects only if more is charged than the last collection left, or than the host has set.
A collection sets the threshold anew, or it faults, and it faults only if the product is more than
a machine word. -/
theorem threshold_paces {factor : Nat} {ops : List Operation} {gauge : Gauge}
    (history : ops.foldlM Gauge.perform { heap := empty (policy.withGrowth factor) } = .ok gauge) :
    gauge.heap.bytes ≤ gauge.heap.threshold ∧
    gauge.heap.threshold = gauge.left.elim policy.threshold (· * max factor 1) ∧
    ∀ (o : Object) (roots : List Handle), (∀ g ∈ roots, gauge.heap.InRange g) →
      gauge.heap.ChildrenInRange →
      ((∃ h heap', allocate o roots gauge.heap = .ok h heap' ∧ heap'.bytes ≤ heap'.threshold ∧
          (heap'.tally.collections ≠ gauge.heap.tally.collections →
            policy.stress = true ∨ gauge.left.getD policy.threshold < gauge.heap.bytes + o.size)) ∨
        ∃ heap', allocate o roots gauge.heap = .error .overflow heap' ∧
          maxWord < heap'.bytes * max factor 1 ∧ heap'.bytes ≤ gauge.heap.bytes + o.size ∧
          (policy.stress = true ∨ gauge.left.getD policy.threshold < gauge.heap.bytes + o.size)) ∧
      ((∃ heap', collect roots gauge.heap = .ok () heap' ∧ heap'.bytes ≤ heap'.threshold ∧
          heap'.threshold = heap'.bytes * max factor 1 ∧ heap'.threshold ≤ maxWord) ∨
        ∃ heap', collect roots gauge.heap = .error .overflow heap' ∧
          maxWord < heap'.bytes * max factor 1 ∧ heap'.bytes ≤ gauge.heap.bytes) := by
  have grows : 0 < (policy.withGrowth factor).growth := Nat.le_max_right factor 1
  have initial : Gauge.Set (policy.withGrowth factor)
    { heap := empty (policy.withGrowth factor) } :=
    ⟨(sound_empty _).toOrderly, rfl, Nat.zero_le _, rfl⟩
  have set := Gauge.foldlM_set initial grows history
  have hgrowth : gauge.heap.policy.growth = max factor 1 := congrArg Policy.growth set.setting
  have hlevel := set.level_le grows
  refine ⟨set.within, set.threshold, fun o roots inRange fields => ?_⟩
  have hstray := set.orderly.not_strays inRange fields
  have hdue : (gauge.heap.charge o.size).isDue →
      policy.stress = true ∨ gauge.left.getD policy.threshold < gauge.heap.bytes + o.size := by
    intro due
    rcases Bool.or_eq_true_iff.mp due with hstress | hless
    · exact .inl (congrArg Policy.stress set.setting ▸ hstress)
    · exact .inr (Nat.lt_of_le_of_lt hlevel (of_decide_eq_true hless))
  constructor
  · rcases allocate_cases set.orderly o roots with
      ⟨h, heap', hrun, -⟩ | ⟨heap', hrun, -⟩ | ⟨-, -, h⟩
    · obtain ⟨hpaced, hcollects⟩ := paced_of_allocate set.orderly hrun
      refine .inl ⟨h, heap', hrun, ?_, fun hcounted => hdue (hcollects hcounted)⟩
      cases hpaced with
      | spared _ _ hthreshold _ hwithin => exact hthreshold ▸ hwithin set.within
      | collected rearmed =>
          rw [rearmed.threshold]
          exact Nat.le_mul_of_pos_right _ (hgrowth ▸ Nat.le_max_right factor 1)
    · obtain ⟨⟨hbytes, hover⟩, due⟩ := overdrawn_of_allocate set.orderly hrun
      exact .inr ⟨heap', hrun, hgrowth ▸ hover, hbytes, hdue due⟩
    · exact absurd h hstray
  · obtain ⟨hok, herror⟩ := collect_paces set.orderly roots
    rcases collect_cases set.orderly roots with ⟨heap', hrun, -⟩ | ⟨heap', hrun, -⟩ | ⟨-, -, h⟩
    · obtain ⟨-, -, hthreshold, hfits, -⟩ := hok heap' hrun
      rw [hgrowth] at hthreshold
      refine .inl ⟨heap', hrun, ?_, hthreshold, hfits⟩
      rw [hthreshold]
      exact Nat.le_mul_of_pos_right _ (Nat.le_max_right factor 1)
    · obtain ⟨hbytes, hover⟩ := herror heap' hrun
      exact .inr ⟨heap', hrun, hgrowth ▸ hover, hbytes⟩
    · exact absurd h hstray

/-- Three strings, of which the second one is dropped. -/
def growing : List Operation := [.intern "once" [], .intern "twice" [⟨0⟩], .intern "thrice" [⟨0⟩]]

/-- The second and the third string are too much for the threshold, so both times a collection
runs. The last one leaves the first string and what is charged for the third. -/
theorem threshold_paces_growing : ∃ gauge,
    growing.foldlM Gauge.perform { heap := empty (({ threshold := 200 } : Policy).withGrowth 0) } =
      .ok gauge ∧ gauge.left = some 202 ∧ gauge.heap.bytes ≤ gauge.heap.threshold ∧
    gauge.heap.threshold = 202 ∧
    ((∃ heap', collect [⟨0⟩] gauge.heap = .ok () heap' ∧ heap'.bytes ≤ heap'.threshold ∧
        heap'.threshold = heap'.bytes * max 0 1 ∧ heap'.threshold ≤ maxWord) ∨
      ∃ heap', collect [⟨0⟩] gauge.heap = .error .overflow heap' ∧
        maxWord < heap'.bytes * max 0 1 ∧ heap'.bytes ≤ gauge.heap.bytes) := by
  have entries : (match growing.foldlM Gauge.perform
        { heap := empty (({ threshold := 200 } : Policy).withGrowth 0) } with
      | .ok gauge => decide (gauge.left = some 202) && decide (0 < gauge.heap.slots.size) &&
          gauge.heap.slots.all (fun slot => slot.object.all fun o =>
            o.children.all fun v => v.handle?.all (·.index < gauge.heap.slots.size))
      | .error _ => false) = true := by
    decide +kernel
  split at entries
  · rename_i gauge run
    simp only [Bool.and_eq_true, decide_eq_true_eq] at entries
    obtain ⟨⟨left, range⟩, fields⟩ := entries
    obtain ⟨within, threshold, next⟩ := threshold_paces run
    have roots : ∀ g ∈ [(⟨0⟩ : Handle)], gauge.heap.InRange g := by
      rintro g hg
      obtain rfl := List.mem_singleton.mp hg
      exact range
    refine ⟨gauge, run, left, within, ?_,
      (next (.string "") [⟨0⟩] roots (childrenInRange_of_all fields)).2⟩
    rw [threshold, left]
    rfl
  · cases entries

/-- There is a factor that the host may set, and for which the bytes of one string are too much. -/
theorem growth_overflows : ∃ gauge heap',
    [Operation.intern "ab" []].foldlM Gauge.perform
      { heap := empty (({} : Policy).withGrowth 9223372036854775808) } = .ok gauge ∧
    collect [⟨0⟩] gauge.heap = .error .overflow heap' ∧ heap'.bytes = 98 := by
  have entries : (match [Operation.intern "ab" []].foldlM Gauge.perform
        { heap := empty (({} : Policy).withGrowth 9223372036854775808) } with
      | .ok gauge =>
        match collect [⟨0⟩] gauge.heap with
        | .error .overflow heap' => decide (heap'.bytes = 98)
        | _ => false
      | .error _ => false) = true := by
    decide +kernel
  split at entries
  · rename_i gauge run
    split at entries
    · rename_i heap' hcollect
      exact ⟨gauge, heap', run, hcollect, of_decide_eq_true entries⟩
    · cases entries
  · cases entries

end Lox.Heap
