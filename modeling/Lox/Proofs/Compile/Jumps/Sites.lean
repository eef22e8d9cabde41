import Lox.Proofs.Compile.Reports
import Lox.Proofs.Compile.Surveyed
import Mathlib.Data.List.Nodup

/-!
# What a survey says of the code

The jumps of a survey are where it says that they are, one behind the other, and their operands hold
the distances to their targets. This stays so while code is written behind them, while other jumps
are patched, and while functions inside are compiled, since each of these leaves alone the three
bytes of a jump that is there already.

The jumps of a function that have no target yet are its pending ones. They are marked, and so are
the offsets to which a loop may lead. A function is finished when no jump is pending.

## Main definitions

* `JumpSite.reach`, `Aim.Exact` — a jump that is given its target.
* `JumpSite.Placed`, `Survey.Maps` — jumps in some code.
* `Marks.Fit`, `Survey.Holds` — marks, and a survey that is true of the compiler.

## Main results

* `Maps.extend`, `Maps.add`, `Maps.lead` — code that grows, and operands that are overwritten.
* `Marks.Fit.wait`, `Marks.Fit.lead` — a jump that is pending, and one that is so no longer.
-/

namespace Lox

/-- The code of the function being compiled. -/
abbrev Compiler.code (c : Compiler) : Array UInt8 := c.draft.chunk.code

/-! ### Jumps that are given their targets -/

namespace JumpSite

/-- How far a target lies from the end of the operand. -/
def reach (site : JumpSite) (target : Nat) : Nat :=
  (target - (site.operand + 2)) + (site.operand + 2 - target)

/-- What is wrong with a jump that reaches too far. -/
def issue (site : JumpSite) : Issue := if site.op = .loop then .loopTooLong else .jumpTooLong

theorem message_issue (site : JumpSite) : site.issue.message =
    if site.op = .loop then "Loop body too large." else "Too much code to jump over." := by
  unfold issue
  split <;> rfl

/-- What is reported about a jump that reaches too far, or the earlier error that withholds it. -/
def verdict (site : JumpSite) (aim : Aim) : Diagnostic :=
  aim.before.alarm.getD (.atToken aim.before.previous site.issue)

end JumpSite

/-- A jump is given its target exactly. A forward jump leads to the end of the code, which lies
behind its operand, and a loop leads back into the code and is written behind it. No other byte is
changed. If the distance fits into two bytes, the operand holds it, the high byte first, and nothing
is reported. If it does not, an alarm is raised, unless there is one already. -/
structure Aim.Exact (site : JumpSite) (aim : Aim) : Prop where
  forward : site.op ≠ .loop → aim.target = aim.before.code.size ∧
    site.operand + 2 ≤ aim.target ∧ aim.after.code.size = aim.before.code.size
  back : site.op = .loop → aim.target ≤ aim.before.code.size ∧
    site.operand = aim.before.code.size + 1 ∧ aim.after.code.size = aim.before.code.size + 3
  others : ∀ i < aim.before.code.size, i ≠ site.operand → i ≠ site.operand + 1 →
    aim.after.code[i]? = aim.before.code[i]?
  near : site.reach aim.target ≤ 65535 →
    aim.after.draft.chunk.pairAt? site.operand = some (site.reach aim.target) ∧
      aim.after.alarm = aim.before.alarm ∧ aim.after.diagnostics = aim.before.diagnostics
  far : 65535 < site.reach aim.target → aim.after.alarm = some (site.verdict aim) ∧
    aim.after.diagnostics = aim.before.diagnostics

/-! ### Jumps in some code -/

/-- A jump is where it is said to be, and holds the distance to its target. -/
structure JumpSite.Placed (code : Array UInt8) (site : JumpSite) : Prop where
  pos : 0 < site.operand
  size : site.operand + 2 ≤ code.size
  op : code[site.operand - 1]? = some site.op.toByte
  /-- A loop has a target from the beginning. -/
  kind : site.op = .jump ∨ site.op = .jumpIfFalse ∨ site.op = .loop ∧ site.aim.isSome = true
  exact : ∀ aim, site.aim = some aim → aim.Exact site
  operand : ∀ aim, site.aim = some aim → site.reach aim.target ≤ 65535 →
    Chunk.pairAt? { code } site.operand = some (site.reach aim.target)

/-- Jumps in some code, which do not overlap. -/
structure Survey.Maps (code : Array UInt8) (sites : List JumpSite) : Prop where
  placed : ∀ site ∈ sites, site.Placed code
  apart : ∀ site ∈ sites, ∀ other ∈ sites, other ≠ site →
    other.operand + 2 < site.operand ∨ site.operand + 2 < other.operand

section Maps

variable {code code' : Array UInt8} {site : JumpSite} {sites : List JumpSite} {aim : Aim}

/-- Only the three bytes of a jump matter. -/
theorem JumpSite.Placed.of_same (placed : site.Placed code) (size : code.size ≤ code'.size)
    (same : ∀ i < code.size, site.operand ≤ i + 1 → i ≤ site.operand + 1 →
      code'[i]? = code[i]?) : site.Placed code' := by
  have hpos := placed.pos
  have hsize := placed.size
  refine ⟨hpos, by omega, ?_, placed.kind, placed.exact, fun aim haim hnear => ?_⟩
  · rw [same _ (by omega) (by omega) (by omega)]
    exact placed.op
  · have hpair := placed.operand aim haim hnear
    simp only [Chunk.pairAt?] at hpair ⊢
    rw [same _ (by omega) (by omega) (by omega), same _ (by omega) (by omega) (by omega)]
    exact hpair

/-- A forward jump that is given its target. -/
theorem JumpSite.Placed.aimed (placed : site.Placed aim.before.code) (forward : site.op ≠ .loop)
    (exact : aim.Exact site) : JumpSite.Placed aim.after.code { site with aim := some aim } := by
  have hpos := placed.pos
  have hsize := placed.size
  obtain ⟨-, -, hsame⟩ := exact.forward forward
  have hop : aim.after.code[site.operand - 1]? = aim.before.code[site.operand - 1]? :=
    exact.others _ (by omega) (by omega) (by omega)
  refine ⟨hpos, hsame ▸ hsize, hop.trans placed.op,
    placed.kind.imp_right (.imp_right fun h => ⟨h.1, rfl⟩), ?_, ?_⟩
  · rintro _ ⟨⟩
    exact ⟨exact.forward, exact.back, exact.others, exact.near, exact.far⟩
  · rintro _ ⟨⟩ hnear
    exact (exact.near hnear).1

namespace Survey.Maps

theorem nil (code : Array UInt8) : Maps code [] :=
  ⟨List.forall_mem_nil _, List.forall_mem_nil _⟩

/-- Code is written behind the jumps. -/
theorem extend (maps : Maps code sites) (size : code.size ≤ code'.size)
    (same : ∀ i < code.size, code'[i]? = code[i]?) : Maps code' sites :=
  ⟨fun site hsite => (maps.placed site hsite).of_same size fun i hi _ _ => same i hi,
    maps.apart⟩

/-- Another jump is written behind the others. -/
theorem add (maps : Maps code' sites) (placed : site.Placed code')
    (behind : ∀ other ∈ sites, other.operand + 2 < site.operand) :
    Maps code' (sites ++ [site]) := by
  have hmem : ∀ other ∈ sites ++ [site], other ∈ sites ∨ other = site := fun other h => by
    simpa using h
  refine ⟨fun other hother => ?_, fun a ha b hb hne => ?_⟩
  · rcases hmem other hother with hother | rfl
    · exact maps.placed other hother
    · exact placed
  · rcases hmem a ha with ha | ha <;> rcases hmem b hb with hb | hb
    · exact maps.apart a ha b hb hne
    · exact hb ▸ .inr (behind a ha)
    · exact ha ▸ .inl (behind b hb)
    · exact absurd (hb.trans ha.symm) hne

/-- A jump is given its target, and nothing but its operand is overwritten. -/
theorem lead (maps : Maps code sites) (hsite : site ∈ sites) (size : code'.size = code.size)
    (same : ∀ i < code.size, i ≠ site.operand → i ≠ site.operand + 1 → code'[i]? = code[i]?)
    (placed : JumpSite.Placed code' { site with aim := some aim }) :
    Maps code' (sites.map fun other =>
      if other.operand = site.operand then { other with aim := some aim } else other) := by
  have hself : ∀ other ∈ sites, other.operand = site.operand → other = site := by
    intro other hother hsame
    by_contra hne
    have := maps.apart site hsite other hother hne
    omega
  have hoperand : ∀ other : JumpSite, (if other.operand = site.operand then
      { other with aim := some aim } else other).operand = other.operand := fun other => by
    split <;> rfl
  constructor
  · intro led hled
    obtain ⟨other, hother, rfl⟩ := List.mem_map.mp hled
    split
    · rename_i hsame
      rw [hself other hother hsame]
      exact placed
    · rename_i hne
      have hplaced := maps.placed other hother
      have hpos := hplaced.pos
      refine hplaced.of_same (Nat.le_of_eq size.symm) fun i hi hlow hhigh => same i hi ?_ ?_
      all_goals
        have := maps.apart site hsite other hother (fun h => hne (h ▸ rfl))
        omega
  · intro a ha b hb hne
    obtain ⟨first, hfirst, rfl⟩ := List.mem_map.mp ha
    obtain ⟨second, hsecond, rfl⟩ := List.mem_map.mp hb
    rw [hoperand, hoperand]
    exact maps.apart first hfirst second hsecond fun h => hne (h ▸ rfl)

end Survey.Maps

end Maps

/-! ### Marks -/

/-- Places in the code of a function that matter to what is compiled next. -/
structure Marks where
  /-- The operands of the jumps without a target, the last one first. -/
  pending : List Nat := []
  /-- Offsets that the code has reached, to which a loop may lead. -/
  reached : List Nat := []

/-- Marks that fit the code of a function and its jumps. -/
structure Marks.Fit (K : Marks) (code : Array UInt8) (sites : List JumpSite) : Prop where
  maps : Survey.Maps code sites
  nodup : K.pending.Nodup
  pending : ∀ p, p ∈ K.pending ↔ ∃ site ∈ sites, site.operand = p ∧ site.aim = none
  reached : ∀ offset ∈ K.reached, offset ≤ code.size

namespace Marks.Fit

variable {K : Marks} {code code' : Array UInt8} {site : JumpSite} {sites : List JumpSite}
  {aim : Aim} {l₁ l₂ reached : List Nat}

/-- There are no jumps yet. -/
theorem nil (code : Array UInt8) : Fit {} code [] :=
  ⟨.nil code, List.nodup_nil, fun p => by simp, List.forall_mem_nil _⟩

/-- Code is written behind the jumps. -/
theorem extend (fit : K.Fit code sites) (size : code.size ≤ code'.size)
    (same : ∀ i < code.size, code'[i]? = code[i]?) : K.Fit code' sites :=
  ⟨fit.maps.extend size same, fit.nodup, fit.pending, fun offset hoffset =>
    Nat.le_trans (fit.reached offset hoffset) size⟩

/-- Other offsets are of interest. -/
theorem reach (fit : K.Fit code sites) (within : ∀ offset ∈ reached, offset ≤ code.size) :
    Fit { K with reached } code sites :=
  ⟨fit.maps, fit.nodup, fit.pending, within⟩

/-- The jumps lie before the end of the code. -/
theorem behind (fit : K.Fit code sites) : ∀ other ∈ sites, other.operand + 2 < code.size + 1 :=
  fun other hother => Nat.lt_succ_of_le (fit.maps.placed other hother).size

/-- A jump without a target is written. -/
theorem wait (fit : K.Fit code' sites) (placed : site.Placed code')
    (behind : ∀ other ∈ sites, other.operand + 2 < site.operand) (aimless : site.aim = none) :
    Fit { K with pending := site.operand :: K.pending } code' (sites ++ [site]) := by
  refine ⟨fit.maps.add placed behind, List.nodup_cons.mpr ⟨fun hpending => ?_, fit.nodup⟩,
    fun p => ?_, fit.reached⟩
  · obtain ⟨other, hother, hsame, -⟩ := (fit.pending _).mp hpending
    have := behind other hother
    omega
  · rw [List.mem_cons, fit.pending]
    constructor
    · rintro (rfl | ⟨other, hother, hoperand, hnone⟩)
      · exact ⟨site, by simp, rfl, aimless⟩
      · exact ⟨other, List.mem_append_left _ hother, hoperand, hnone⟩
    · rintro ⟨other, hother, hoperand, hnone⟩
      rcases List.mem_append.mp hother with hother | hother
      · exact .inr ⟨other, hother, hoperand, hnone⟩
      · obtain rfl := List.mem_singleton.mp hother
        exact .inl hoperand.symm

/-- A jump with a target is written. -/
theorem add (fit : K.Fit code' sites) (placed : site.Placed code')
    (behind : ∀ other ∈ sites, other.operand + 2 < site.operand) (aimed : site.aim = some aim) :
    K.Fit code' (sites ++ [site]) := by
  refine ⟨fit.maps.add placed behind, fit.nodup, fun p => ?_, fit.reached⟩
  rw [fit.pending]
  constructor
  · rintro ⟨other, hother, hoperand, hnone⟩
    exact ⟨other, List.mem_append_left _ hother, hoperand, hnone⟩
  · rintro ⟨other, hother, hoperand, hnone⟩
    rcases List.mem_append.mp hother with hother | hother
    · exact ⟨other, hother, hoperand, hnone⟩
    · obtain rfl := List.mem_singleton.mp hother
      exact absurd (hnone.symm.trans aimed) nofun

/-- A pending jump is given its target. -/
theorem lead (fit : Fit ⟨l₁ ++ site.operand :: l₂, reached⟩ code sites) (hsite : site ∈ sites)
    (size : code'.size = code.size)
    (same : ∀ i < code.size, i ≠ site.operand → i ≠ site.operand + 1 → code'[i]? = code[i]?)
    (placed : JumpSite.Placed code' { site with aim := some aim }) :
    Fit ⟨l₁ ++ l₂, reached⟩ code' (sites.map fun other =>
      if other.operand = site.operand then { other with aim := some aim } else other) := by
  obtain ⟨hother, hnodup⟩ := List.nodup_cons.mp (List.nodup_middle.mp fit.nodup)
  refine ⟨fit.maps.lead hsite size same placed, hnodup, fun p => ?_, fun offset hoffset =>
    size ▸ fit.reached offset hoffset⟩
  have hbefore := fit.pending p
  constructor
  · intro hp
    obtain ⟨other, hmem, hoperand, hnone⟩ := hbefore.mp (by
      rcases List.mem_append.mp hp with h | h
      · exact List.mem_append_left _ h
      · exact List.mem_append_right _ (List.mem_cons_of_mem _ h))
    have hne : other.operand ≠ site.operand := fun h => hother (h ▸ hoperand ▸ hp)
    exact ⟨other, List.mem_map.mpr ⟨other, hmem, if_neg hne⟩, hoperand, hnone⟩
  · rintro ⟨led, hled, hoperand, hnone⟩
    obtain ⟨other, hmem, rfl⟩ := List.mem_map.mp hled
    split at hoperand
    · rename_i hsame
      rw [if_pos hsame] at hnone
      cases hnone
    · rename_i hne
      rw [if_neg hne] at hnone
      rcases List.mem_append.mp (hbefore.mpr ⟨other, hmem, hoperand, hnone⟩) with h | h
      · exact List.mem_append_left _ h
      · exact List.mem_append_right _ ((List.mem_cons.mp h).resolve_left
          fun hp => hne (hoperand.trans hp))

/-- Where no jump is pending, every jump has a target. -/
theorem aimed (fit : K.Fit code sites) (none : K.pending = []) : Fit {} code sites :=
  ⟨fit.maps, List.nodup_nil, fun p => none ▸ fit.pending p, List.forall_mem_nil _⟩

end Marks.Fit

/-! ### Surveys -/

/-- Marks that fit, function by function. -/
inductive Layers : List Marks → List (Array UInt8) → List (List JumpSite) → Prop
  | nil : Layers [] [] []
  | cons {K : Marks} {Ks : List Marks} {code : Array UInt8} {codes : List (Array UInt8)}
      {sites : List JumpSite} {outer : List (List JumpSite)} :
      K.Fit code sites → Layers Ks codes outer → Layers (K :: Ks) (code :: codes) (sites :: outer)

/-- The code of the functions around. -/
def Compiler.outerCode (c : Compiler) : List (Array UInt8) := c.enclosing.map (·.chunk.code)

namespace Survey

/-- All jumps that have been written. -/
def all (s : Survey) : List JumpSite := s.sites ++ s.outer.flatten ++ s.finished.flatMap Prod.snd

/-- A survey that is true of the compiler, with the marks of the function being compiled and of
those around it. What has been reported about the jumps stays reported. -/
structure Holds (Ks : List Marks) (s : Survey) (c : Compiler) : Prop where
  layers : Layers Ks (c.code :: c.outerCode) (s.sites :: s.outer)
  finished : ∀ f ∈ s.finished, Marks.Fit {} f.1.chunk.code f.2
  told : ∀ site ∈ s.all, ∀ aim, site.aim = some aim →
    aim.after.reported.toList ⊆ c.reported.toList

end Survey

end Lox
