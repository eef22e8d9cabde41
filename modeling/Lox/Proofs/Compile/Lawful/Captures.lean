import Lox.Proofs.Code.Binding
import Lox.Proofs.Compile.Totality.Upkeep
import Lox.Proofs.Syntax.Rules

/-!
# There is room for what a function captures

Each index among the captured variables of a function leads outward to a local of a function around,
and no two lead to the same one. So if the locals that they lead to are among those that the tree
tells, a function captures no more variables than that.

## Main definitions

* `Draft.Roomy`, `Roomy` — the captures of a function, and of all that are open, lead to given
  locals.
* `Draft.Lookup.Roomy` — what a look-up in the functions around comes to.

## Main results

* `Draft.Roomy.count` — how many variables are captured.
* `Draft.capture?_roomy` — looking a name up in the functions around finds nothing wrong.
-/

namespace Lox

/-! ### What is captured stays -/

/-- What a captured variable is does not change when more is captured. -/
theorem Capture.source?_mono {lists lists' : List (List Capture)} {i : Nat} {v : Nat × Nat}
    (grow : List.Forall₂ (· <+: ·) lists lists') (source : source? lists i = some v) :
    source? lists' i = some v := by
  induction grow generalizing i v with
  | nil => exact source
  | @cons captures captures' around around' hfirst _ ih =>
      obtain ⟨level, slot⟩ := v
      obtain ⟨c, hc, ⟨hlocal, rfl, rfl⟩ | ⟨hpassed, further, hsource, rfl⟩⟩ := of_source? source
      · exact source?_of_isLocal (getElem?_mono hfirst hc) hlocal
      · exact source?_of_passed (getElem?_mono hfirst hc) hpassed (ih hsource)

namespace Draft

/-- What some functions capture, innermost first. -/
abbrev capturesOf (drafts : List Draft) : List (List Capture) := drafts.map (·.captures.toList)

/-- The captures of a function lead to given locals of the functions around it. The functions around
capture what is theirs of these, and their locals may all be used. -/
structure Roomy (d : Draft) (around : List Draft) (wanted : List (Nat × Nat))
    (others : List (List (Nat × Nat))) : Prop where
  locals : d.locals.length ≤ maxLocals
  distinct : d.captures.toList.Nodup
  room : wanted.dedup.length ≤ maxCaptures
  sources : ∀ i < d.captures.size, ∃ v ∈ wanted,
    Capture.source? (capturesOf (d :: around)) i = some v
  outward : ∀ v ∈ wanted, ∀ v', outward? v = some v' → ∃ further ∈ others.head?, v' ∈ further
  ready : ∀ o ∈ around.head?, ∀ l ∈ o.locals, l.depth ≠ none

end Draft

/-- The captures of all functions that are open lead to given locals. -/
def Roomy : List Draft → List (List (Nat × Nat)) → Prop
  | [], [] => True
  | d :: around, wanted :: others => d.Roomy around wanted others ∧ Roomy around others
  | _, _ => False

namespace Draft

variable {d d' o : Draft} {around around' : List Draft} {wanted : List (Nat × Nat)}
  {others : List (List (Nat × Nat))} {name : String} {v : Nat × Nat}

/-- No function that is open captures a variable twice. -/
theorem nodup_of_roomy {drafts : List Draft} {all : List (List (Nat × Nat))}
    (roomy : Lox.Roomy drafts all) : ∀ captures ∈ capturesOf drafts, captures.Nodup := by
  induction drafts generalizing all with
  | nil => exact fun _ h => by cases h
  | cons d around ih =>
      cases all with
      | nil => exact roomy.elim
      | cons wanted others => exact List.forall_mem_cons.mpr ⟨roomy.1.distinct, ih roomy.2⟩

/-- A function captures no more variables than it may. -/
theorem Roomy.count (roomy : d.Roomy around wanted others) (outer : Lox.Roomy around others) :
    d.captures.size ≤ wanted.dedup.length := by
  have hdistinct : ∀ captures ∈ capturesOf (d :: around), captures.Nodup :=
    List.forall_mem_cons.mpr ⟨roomy.distinct, nodup_of_roomy outer⟩
  have hinj : (List.range d.captures.size).Pairwise fun i j =>
      Capture.source? (capturesOf (d :: around)) i ≠ Capture.source?
        (capturesOf (d :: around)) j := by
    refine List.nodup_range.imp_of_mem fun {i j} hi hj hne heq => hne ?_
    obtain ⟨⟨level, slot⟩, -, hsource⟩ := roomy.sources i (List.mem_range.mp hi)
    exact Capture.source?_inj hdistinct hsource (heq ▸ hsource)
  have hnodup : ((List.range d.captures.size).map
      (Capture.source? (capturesOf (d :: around)))).Nodup := List.pairwise_map.mpr hinj
  have hsubset : (List.range d.captures.size).map (Capture.source? (capturesOf (d :: around))) ⊆
      wanted.dedup.map some := fun source hsource => by
    obtain ⟨i, hi, rfl⟩ := List.mem_map.mp hsource
    obtain ⟨v, hv, heq⟩ := roomy.sources i (List.mem_range.mp hi)
    exact List.mem_map.mpr ⟨v, List.mem_dedup.mpr hv, heq.symm⟩
  simpa using (List.subperm_of_subset hnodup hsubset).length_le

/-- A function around may capture more, or have more of its locals captured. -/
theorem Roomy.outer (roomy : d.Roomy around wanted others)
    (widen : List.Forall₂ Widens around around') : d.Roomy around' wanted others := by
  refine ⟨roomy.locals, roomy.distinct, roomy.room, fun i hi => ?_, roomy.outward,
    fun o' ho' l' hl' => ?_⟩
  · obtain ⟨v, hv, hsource⟩ := roomy.sources i hi
    refine ⟨v, hv, Capture.source?_mono (.cons List.prefix_rfl ?_) hsource⟩
    exact List.forall₂_map_left_iff.mpr (List.forall₂_map_right_iff.mpr
      (widen.imp fun _ _ h => h.captures))
  · cases widen with
    | nil => cases ho'
    | cons hfirst _ =>
        obtain rfl := Option.some.inj ho'
        obtain ⟨l, hl, hgrows⟩ := exists_of_forall₂ hfirst.locals hl'
        rw [← show l.depth = l'.depth from congrArg Prod.snd hgrows.1]
        exact roomy.ready _ rfl l hl

/-- The locals of a function have nothing to do with what it captures. -/
theorem Roomy.update (roomy : d.Roomy around wanted others) (locals : d'.locals.length ≤ maxLocals)
    (same : d'.captures = d.captures) : d'.Roomy around wanted others := by
  refine ⟨locals, same ▸ roomy.distinct, roomy.room, fun i hi => ?_, roomy.outward, roomy.ready⟩
  have hcaptures : capturesOf (d' :: around) = capturesOf (d :: around) := by
    rw [capturesOf, List.map_cons, same]
    rfl
  rw [hcaptures]
  exact roomy.sources i (same ▸ hi)

/-! ### Capturing a variable -/

/-- The local that a capture leads to. -/
def LeadsTo (wanted : Capture) (around : List Draft) (v : Nat × Nat) : Prop :=
  Capture.source? ([wanted] :: capturesOf around) 0 = some v

/-- The index of a capture leads to where the capture leads. -/
theorem LeadsTo.source {wanted : Capture} {captures : List Capture} {i : Nat}
    (leads : LeadsTo wanted around v) (found : captures[i]? = some wanted) :
    Capture.source? (captures :: capturesOf around) i = some v := by
  unfold LeadsTo at leads
  simpa [Capture.source?, found] using leads

/-- There is room for a variable that a function may capture. -/
theorem addCapture_roomy {wanted' : Capture} (roomy : d.Roomy around wanted others)
    (outer : Lox.Roomy around others) (leads : LeadsTo wanted' around v) (mem : v ∈ wanted) :
    (d.addCapture wanted').2.2 = [] ∧ (d.addCapture wanted').2.1.Roomy around wanted others ∧
      Capture.source? (capturesOf ((d.addCapture wanted').2.1 :: around))
        (d.addCapture wanted').1.toNat = some v := by
  have hbyte : ∀ i < 256, (UInt8.ofNat i).toNat = i := fun i hi => by
    rw [UInt8.toNat_ofNat']
    omega
  have hroom : wanted.dedup.length ≤ 256 := roomy.room
  have hcount := roomy.count outer
  unfold addCapture
  cases hfind : d.captures.findIdx? (· = wanted') with
  | some i =>
      obtain ⟨hi, hwanted, -⟩ := Array.findIdx?_eq_some_iff_getElem.mp hfind
      refine ⟨rfl, roomy, leads.source ?_⟩
      rw [hbyte i (by omega), Array.getElem?_toList, Array.getElem?_eq_getElem hi]
      simpa using hwanted
  | none =>
      have hnew : wanted' ∉ d.captures.toList := fun hmem => by
        have := Array.findIdx?_eq_none_iff.mp hfind wanted' (Array.mem_toList_iff.mp hmem)
        simp at this
      -- if there were no room, the function would capture more than it may
      have hpushed :
          Draft.Roomy { d with captures := d.captures.push wanted' } around wanted others := by
        refine ⟨roomy.locals, ?_, roomy.room, fun i hi => ?_, roomy.outward, roomy.ready⟩
        · rw [Array.toList_push, ← List.concat_eq_append]
          exact roomy.distinct.concat hnew
        · rw [Array.size_push] at hi
          rcases Nat.lt_succ_iff_lt_or_eq.mp hi with hi | rfl
          · obtain ⟨v', hv', hsource⟩ := roomy.sources i hi
            refine ⟨v', hv', Capture.source?_mono (.cons (by simp) ?_) hsource⟩
            exact List.forall₂_same.mpr fun _ _ => List.prefix_rfl
          · exact ⟨v, mem, leads.source (by simp)⟩
      have hmore := hpushed.count outer
      rw [Array.size_push] at hmore
      have hfull : d.captures.size ≠ maxCaptures := fun hfull => by
        rw [hfull, maxCaptures] at hmore
        omega
      simp only [hfull, if_false]
      refine ⟨trivial, hpushed, leads.source ?_⟩
      rw [hbyte _ (by omega)]
      simp

/-! ### Looking a name up -/

/-- The names of the locals of some functions. -/
def scopesOf (drafts : List Draft) : List (List String) := drafts.map (·.locals.map (·.name))

/-- What is found under a name is a local of this name. -/
theorem findLocal?_mem {ls : List Local} {slot : Nat} {l : Local}
    (found : findLocal? name ls = some (slot, l)) : l ∈ ls ∧ l.name = name := by
  induction ls with
  | nil => cases found
  | cons first older ih =>
      unfold findLocal? at found
      split at found
      · rename_i hname
        cases found
        exact ⟨List.mem_cons_self .., hname⟩
      · exact (ih found).imp_left (List.mem_cons_of_mem first)

/-- The slot of the newest local of a name. -/
theorem newest?_locals (name : String) (ls : List Local) :
    Binding.newest? name (ls.map (·.name)) = (findLocal? name ls).map (·.1) := by
  induction ls with
  | nil => rfl
  | cons l older ih =>
      simp only [List.map_cons, Binding.newest?, findLocal?, List.length_map]
      split
      · rfl
      · exact ih

/-- Nothing is wrong with a name that has been looked up, and the index that was found leads to the
local that the name means in the functions around. -/
structure Lookup.Roomy (found : Lookup) (meant : Option (Nat × Nat)) (wanted : List (Nat × Nat))
    (others : List (List (Nat × Nat))) : Prop where
  issues : found.issues = []
  drafts : Lox.Roomy (found.draft :: found.enclosing) (wanted :: others)
  missing : meant = none → found.index = none
  leads : ∀ level slot, meant = some (level, slot) → ∃ i, found.index = some i ∧
    Capture.source? (capturesOf (found.draft :: found.enclosing)) i.toNat = some (level + 1, slot)

/-- A name that means no local of the functions around. -/
theorem Lookup.Roomy.nothing {found : Lookup} (issues : found.issues = [])
    (drafts : Lox.Roomy (found.draft :: found.enclosing) (wanted :: others))
    (index : found.index = none) : found.Roomy none wanted others :=
  ⟨issues, drafts, fun _ => index, fun _ _ hmeant => by cases hmeant⟩

/-- A name that means a local of the functions around. -/
theorem Lookup.Roomy.something {found : Lookup} {i : UInt8} {level slot : Nat}
    (issues : found.issues = [])
    (drafts : Lox.Roomy (found.draft :: found.enclosing) (wanted :: others))
    (index : found.index = some i)
    (leads : Capture.source? (capturesOf (found.draft :: found.enclosing)) i.toNat =
      some (level + 1, slot)) : found.Roomy (some (level, slot)) wanted others := by
  refine ⟨issues, drafts, fun hmeant => ?_, fun level slot hmeant => ?_⟩
  · cases hmeant
  · cases hmeant
    exact ⟨i, index, leads⟩

/-- The next function out has a local of the name. -/
theorem capture?_local {further : List (Nat × Nat)} {slot : Nat} {l : Local}
    (roomy : d.Roomy (o :: around) wanted (further :: others))
    (outer : Lox.Roomy (o :: around) (further :: others))
    (found : findLocal? name o.locals = some (slot, l)) (mem : (1, slot) ∈ wanted) :
    (d.capture? name (o :: around)).Roomy (some (0, slot)) wanted (further :: others) := by
  have hslot : slot < 256 := Nat.lt_of_lt_of_le (findLocal?_lt found) outer.1.locals
  have hbyte : (UInt8.ofNat slot).toNat = slot := by
    rw [UInt8.toNat_ofNat']
    omega
  have hready : l.depth ≠ none := roomy.ready o rfl l (findLocal?_mem found).1
  have hmention : mentionIssues l = [] := by
    cases hdepth : l.depth with
    | none => exact absurd hdepth hready
    | some k => simp [mentionIssues, hdepth]
  have hleads : LeadsTo ⟨UInt8.ofNat slot, true⟩ (o :: around) (1, slot) := by
    simp [LeadsTo, Capture.source?, hbyte]
  obtain ⟨hnone, hadded, hsource⟩ := addCapture_roomy roomy outer hleads mem
  have hwidens := widens_captureLocal o (UInt8.ofNat slot).toNat
  have hwidened : List.Forall₂ Widens (o :: around)
      ({ o with locals := captureLocal (UInt8.ofNat slot).toNat o.locals } :: around) :=
    .cons hwidens (List.forall₂_same.mpr fun e _ => .refl e)
  unfold capture? local?
  simp only [found, hmention, hnone]
  exact .something rfl ⟨hadded.outer hwidened,
    outer.1.update (hwidens.locals.length_eq ▸ outer.1.locals) rfl, outer.2⟩ rfl hsource

/-- The next function out has no local of the name, so it captures what the name means further
out. -/
theorem capture?_passed {further : List (Nat × Nat)} {meant : Option (Nat × Nat)}
    (roomy : d.Roomy (o :: around) wanted (further :: others))
    (unknown : findLocal? name o.locals = none)
    (found : (o.capture? name around).Roomy meant further others)
    (allowed : ∀ level slot, meant = some (level, slot) → (level + 2, slot) ∈ wanted) :
    (d.capture? name (o :: around)).Roomy (meant.map fun v => (v.1 + 1, v.2)) wanted
      (further :: others) := by
  obtain ⟨hwidens, hothers⟩ := capture?_widens name o around
  have hwidened : List.Forall₂ Widens (o :: around)
      ((o.capture? name around).draft :: (o.capture? name around).enclosing) :=
    .cons hwidens hothers
  have hroomy := roomy.outer hwidened
  unfold capture? local?
  cases meant with
  | none =>
      simp only [unknown, found.missing rfl]
      exact .nothing found.issues ⟨hroomy, found.drafts⟩ rfl
  | some v =>
      obtain ⟨level, slot⟩ := v
      obtain ⟨i, hi, hsource⟩ := found.leads level slot rfl
      have hleads : LeadsTo ⟨i, false⟩ ((o.capture? name around).draft ::
          (o.capture? name around).enclosing) (level + 2, slot) :=
        Capture.source?_of_passed rfl rfl hsource
      obtain ⟨hissues, hadded, hadds⟩ := addCapture_roomy hroomy found.drafts hleads
        (allowed level slot rfl)
      simp only [unknown, hi, hissues]
      exact .something (by simpa using found.issues) ⟨hadded, found.drafts⟩ rfl hadds

/-- Nothing is wrong with a name that is looked up in the functions around. -/
theorem capture?_roomy (roomy : d.Roomy around wanted others) (outer : Lox.Roomy around others)
    (allowed : ∀ level slot, Binding.nearest? name (scopesOf around) = some (level, slot) →
      (level + 1, slot) ∈ wanted) :
    (d.capture? name around).Roomy (Binding.nearest? name (scopesOf around)) wanted others := by
  induction around generalizing d wanted others with
  | nil => exact .nothing rfl ⟨roomy, outer⟩ rfl
  | cons o around ih =>
      cases others with
      | nil => exact outer.elim
      | cons further others =>
      rw [scopesOf, List.map_cons, Binding.nearest?, newest?_locals] at allowed ⊢
      cases hlocal : findLocal? name o.locals with
      | some found =>
          rw [hlocal] at allowed
          exact capture?_local roomy outer hlocal (allowed 0 found.1 rfl)
      | none =>
          rw [hlocal] at allowed
          have hallowed : ∀ level slot, Binding.nearest? name (scopesOf around) =
              some (level, slot) → (level + 2, slot) ∈ wanted := fun level slot hfound =>
            allowed (level + 1) slot (by rw [scopesOf] at hfound; simp [hfound])
          have hpassed : ∀ level slot, Binding.nearest? name (scopesOf around) =
              some (level, slot) → (level + 1, slot) ∈ further := fun level slot hfound => by
            obtain ⟨further', hhead, hmem⟩ := roomy.outward _ (hallowed level slot hfound) _ rfl
            obtain rfl := Option.some.inj hhead
            exact hmem
          exact capture?_passed roomy hlocal (ih outer.1 outer.2 hpassed) hallowed

end Draft

end Lox
