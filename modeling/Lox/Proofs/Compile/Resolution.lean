import Lox.Proofs.Compile.Writing

/-!
# What names refer to

A name is looked up in the function at hand, then in the functions around it, nearest first.
The look-up makes every function between the use and the variable capture it, and marks the
variable itself as captured. After it there is a way from the captured variable of the use to
the local of its name (`Leads`), and the functions that are open stay linked.

## Main results

* `Draft.capture?_spec` — looking a name up in the functions around.
* `Compiler.resolve_spec` — what a name refers to.
-/

namespace Lox

namespace Draft

variable {name : String} {slot : Nat} {l : Local} {ls : List Local} {d d' d'' : Draft}

/-! ### Locals -/

/-- The slot of a local is the number of locals older than it. -/
theorem findLocal?_lt (found : findLocal? name ls = some (slot, l)) : slot < ls.length := by
  induction ls with
  | nil => cases found
  | cons first older ih =>
      unfold findLocal? at found
      split at found
      · cases found
        simp
      · have := ih found
        simp only [List.length_cons]
        omega

/-- Looking a local up is looking its variable up. -/
theorem slot?_variables (name : String) (ls : List Local) :
    slot? name (ls.map Local.variable) = (findLocal? name ls).map Prod.fst := by
  induction ls with
  | nil => rfl
  | cons first older ih =>
      simp only [List.map_cons, slot?, findLocal?, List.length_map, Local.variable]
      split
      · rfl
      · exact ih

/-- A local that may be used is found among those that may be used. -/
theorem slot?_ready (used : ∀ slot l, findLocal? name ls = some (slot, l) → l.depth ≠ none) :
    slot? name ((ls.dropWhile (·.depth.isNone)).map Local.variable) =
      (findLocal? name ls).map Prod.fst := by
  induction ls with
  | nil => rfl
  | cons first older ih =>
      cases hdepth : first.depth with
      | some k =>
          rw [List.dropWhile_cons_of_neg (by simp [hdepth])]
          exact slot?_variables name _
      | none =>
          have hname : first.name ≠ name := fun heq =>
            used older.length first (by simp [findLocal?, heq]) hdepth
          have hfind : findLocal? name (first :: older) = findLocal? name older := by
            rw [findLocal?, if_neg hname]
          rw [hfind] at used ⊢
          rw [List.dropWhile_cons_of_pos (by simp [hdepth])]
          exact ih used

/-- The slot of a local in the layer of its draft. -/
theorem slot?_layer (found : d.local? name = some (slot, l)) (used : l.depth ≠ none) :
    slot? name d.layer.locals = some slot := by
  unfold local? at found
  refine (slot?_ready fun slot' l' found' => ?_).trans (by rw [found]; rfl)
  cases found.symm.trans found'
  exact used

/-- A name without a local has no slot in the layer of the draft. -/
theorem slot?_layer_eq_none (absent : d.local? name = none) :
    slot? name d.layer.locals = none := by
  unfold local? at absent
  refine (slot?_ready fun slot l found => ?_).trans (by rw [absent]; rfl)
  cases absent.symm.trans found

/-- Marking a local as captured leaves as many locals. -/
@[simp]
theorem length_captureLocal (slot : Nat) (ls : List Local) :
    (captureLocal slot ls).length = ls.length := by
  induction ls with
  | nil => rfl
  | cons first older ih =>
      unfold captureLocal
      split <;> simp [ih]

/-- Marking a local as captured lets the locals grow. -/
theorem captureLocal_grows (slot : Nat) (ls : List Local) :
    List.Forall₂ Local.Grows ls (captureLocal slot ls) := by
  induction ls with
  | nil => exact .nil
  | cons first older ih =>
      unfold captureLocal
      split
      · exact .cons ⟨rfl, fun _ => rfl⟩ (grows_locals_refl older)
      · exact .cons ⟨rfl, id⟩ ih

/-- The marked slot is shared. -/
theorem isShared_captureLocal (bound : slot < ls.length) :
    isShared slot ((captureLocal slot ls).map Local.variable) = true := by
  induction ls with
  | nil => cases bound
  | cons first older ih =>
      by_cases hslot : older.length = slot
      · simp [captureLocal, hslot, isShared, Local.variable]
      · simp only [List.length_cons] at bound
        simp only [captureLocal, hslot, if_false, List.map_cons, isShared, List.length_map,
          length_captureLocal]
        exact ih (by omega)

/-- The marked slot of a local that may be used is shared. -/
theorem isShared_ready (found : findLocal? name ls = some (slot, l)) (used : l.depth ≠ none) :
    isShared slot (((captureLocal slot ls).dropWhile (·.depth.isNone)).map Local.variable) =
      true := by
  induction ls with
  | nil => cases found
  | cons first older ih =>
      have hbound := findLocal?_lt found
      cases hdepth : first.depth with
      | some k =>
          have hkeep : (captureLocal slot (first :: older)).dropWhile (·.depth.isNone) =
              captureLocal slot (first :: older) := by
            unfold captureLocal
            split <;> exact List.dropWhile_cons_of_neg (by simp [hdepth])
          rw [hkeep]
          exact isShared_captureLocal hbound
      | none =>
          unfold findLocal? at found
          split at found
          · cases found
            exact absurd hdepth used
          · have := findLocal?_lt found
            have hslot : older.length ≠ slot := by omega
            rw [captureLocal, if_neg hslot, List.dropWhile_cons_of_pos (by simp [hdepth])]
            exact ih found

/-! ### Captured variables -/

/-- A draft that captures more, or whose locals are captured more. -/
structure Widens (d d' : Draft) : Prop where
  rest : d' = { d with locals := d'.locals, captures := d'.captures }
  locals : List.Forall₂ Local.Grows d.locals d'.locals
  captures : d.captures.toList <+: d'.captures.toList
  room : d.captures.size ≤ maxCaptures → d'.captures.size ≤ maxCaptures
  distinct : d.captures.toList.Nodup → d'.captures.toList.Nodup

/-- A draft widens to itself. -/
theorem Widens.refl (d : Draft) : d.Widens d :=
  ⟨rfl, grows_locals_refl _, List.prefix_rfl, id, id⟩

/-- Widening is growth. -/
theorem Widens.grows (widens : d.Widens d') : d.Grows [] [] d' := by
  have hrest := widens.rest
  exact ⟨by rw [hrest], by rw [hrest], by rw [hrest], by rw [hrest], by rw [hrest]; simp,
    by rw [hrest], widens.captures, [], _, rfl, rfl, widens.locals⟩

/-- Widening keeps the invariant of a draft. -/
theorem Widens.inOrder {heap : Heap} (widens : d.Widens d') (inOrder : d.InOrder heap) :
    d'.InOrder heap := by
  have hlength := widens.locals.length_eq
  refine ⟨?_, ?_, ?_, hlength ▸ inOrder.locals, widens.room inOrder.captures,
    widens.distinct inOrder.distinct⟩ <;> rw [widens.rest]
  · exact inOrder.lines
  · exact inOrder.constants
  · exact inOrder.name

/-- Widening changes no handles. -/
theorem Widens.handles_eq (widens : d.Widens d') : d'.handles = d.handles := by
  rw [widens.rest]
  rfl

/-- Marking a local as captured widens its draft. -/
theorem widens_captureLocal (d : Draft) (slot : Nat) :
    d.Widens { d with locals := captureLocal slot d.locals } :=
  ⟨rfl, captureLocal_grows slot d.locals, List.prefix_rfl, id, id⟩

/-- Capturing a variable widens a draft, even if there is no room. -/
theorem addCapture_widens (d : Draft) (wanted : Capture) : d.Widens (d.addCapture wanted).2.1 := by
  unfold addCapture
  split
  · exact .refl d
  · rename_i hnew
    split
    · exact .refl d
    · refine ⟨rfl, grows_locals_refl _, by simp, fun room => ?_, fun distinct => ?_⟩
      · simp only [Array.size_push]
        omega
      · have hfresh : wanted ∉ d.captures.toList := fun hmem => by
          have := Array.findIdx?_eq_none_iff.mp hnew wanted (Array.mem_toList_iff.mp hmem)
          simp at this
        rw [Array.toList_push, ← List.concat_eq_append]
        exact distinct.concat hfresh

/-- Capturing a variable, unless there are too many. -/
theorem addCapture_spec {wanted : Capture} {index : UInt8} {issues : List Issue}
    (run : d.addCapture wanted = (index, d', issues)) (none : issues = [])
    (room : d.captures.size ≤ maxCaptures) :
    d.Widens d' ∧ d'.locals = d.locals ∧ d'.captures.toList[index.toNat]? = some wanted ∧
      ∀ c ∈ d'.captures.toList, c ∈ d.captures.toList ∨ c = wanted := by
  have hbyte : ∀ i ≤ 255, (UInt8.ofNat i).toNat = i := fun i hi => by
    rw [UInt8.toNat_ofNat']
    omega
  have hwidens : d.Widens d' := by simpa [run] using addCapture_widens d wanted
  simp only [maxCaptures] at room
  unfold addCapture at run
  split at run
  · rename_i i hfind
    cases run
    rw [Array.findIdx?_eq_some_iff_getElem] at hfind
    obtain ⟨hi, hwanted, -⟩ := hfind
    refine ⟨hwidens, rfl, ?_, fun c hc => .inl hc⟩
    rw [hbyte i (by omega), Array.getElem?_toList, Array.getElem?_eq_getElem hi]
    simpa using hwanted
  · split at run
    · cases run
      cases none
    · rename_i hfull
      simp only [maxCaptures] at hfull
      cases run
      refine ⟨hwidens, rfl, ?_, ?_⟩
      · rw [hbyte _ (by omega)]
        simp
      · simp

/-- The innermost of linked drafts may widen as long as what it captures is open. -/
theorem linked_widen {outer outer' : List Draft} (linked : Linked (d :: outer))
    (inner : d.Widens d') (linked' : ∀ o os, outer' = o :: os → Linked outer')
    (grows : GrowAround outer outer')
    (isOpen : ∀ o os, outer' = o :: os → ∀ c ∈ d'.captures.toList,
      c ∈ d.captures.toList ∨ c.IsOpen o.layer) (same : outer' = [] → d'.captures = d.captures) :
    Linked (d' :: outer') := by
  have hscript : d'.isScript = d.isScript := by rw [inner.rest]
  cases grows with
  | nil => exact ⟨by rw [same rfl]; exact linked.1, hscript.trans linked.2⟩
  | cons ho hos =>
      refine ⟨fun c hc => ?_, hscript.trans linked.2.1, linked' _ _ rfl⟩
      rcases isOpen _ _ rfl c hc with hold | hopen
      · exact (linked.1 c hold).mono ho.layer
      · exact hopen

/-- The outcome of looking a name up in the functions around. -/
structure Captures (name : String) (d : Draft) (outer : List Draft) (found : Lookup) : Prop where
  inner : d.Widens found.draft
  locals : found.draft.locals = d.locals
  around : List.Forall₂ Widens outer found.enclosing
  linked : Linked (found.draft :: found.enclosing)
  leads : ∀ i, found.index = some i →
    Leads name found.draft.layer.captures (found.enclosing.map layer) i.toNat
  global : found.index = none → ∀ o ∈ outer, o.local? name = none

/-- Widening is growth, for the functions around, too. -/
theorem Captures.grows_around {outer : List Draft} {found : Lookup}
    (captures : Captures name d outer found) : GrowAround outer found.enclosing :=
  captures.around.imp fun _ _ h => h.grows

/-- Looking a name up in the functions around. -/
theorem capture?_spec {outer : List Draft} (linked : Linked (d :: outer))
    (captures : ∀ e ∈ d :: outer, e.captures.size ≤ maxCaptures)
    (locals : ∀ e ∈ d :: outer, e.locals.length ≤ maxLocals)
    (none : (capture? name d outer).issues = []) :
    Captures name d outer (capture? name d outer) := by
  induction outer generalizing d with
  | nil => exact ⟨.refl d, rfl, .nil, linked, nofun, nofun⟩
  | cons o outer ih =>
      have hroom := captures d (by simp)
      cases hlocal : o.local? name with
      | some found =>
          obtain ⟨slot, l⟩ := found
          simp only [capture?, hlocal] at none ⊢
          obtain ⟨hmention, hadd⟩ := List.append_eq_nil_iff.mp none
          have hdepth : l.depth ≠ Option.none := by
            intro h
            simp [mentionIssues, h] at hmention
          have hbyte : (UInt8.ofNat slot).toNat = slot := by
            have := findLocal?_lt hlocal
            have := locals o (by simp)
            simp only [maxLocals] at this
            rw [UInt8.toNat_ofNat']
            omega
          obtain ⟨hwidens, hsame, hindex, hmem⟩ := addCapture_spec rfl hadd hroom
          have houter := widens_captureLocal o slot
          have hshared : isShared slot
            ({ o with locals := captureLocal slot o.locals } : Draft).layer.locals
              = true := isShared_ready hlocal hdepth
          rw [hbyte]
          refine ⟨hwidens, hsame, .cons houter (List.forall₂_same.mpr fun e _ => .refl e),
            ?_, ?_, nofun⟩
          · refine linked_widen linked hwidens (fun _ _ _ => Linked.congr linked.2.2 rfl rfl)
              (.cons houter.grows (GrowAround.refl _)) ?_ nofun
            rintro _ _ ⟨⟩ c hc
            refine (hmem c hc).imp_right ?_
            rintro rfl
            simpa [Capture.IsOpen, hbyte] using hshared
          · rintro _ ⟨⟩
            refine .here hindex rfl ?_ (by simpa [hbyte] using hshared)
            simp only [hbyte]
            rw [slot?_eq_of_grows houter.grows.layer.locals]
            exact slot?_layer hlocal hdepth
      | none =>
          simp only [capture?, hlocal] at none ⊢
          cases hindex : (capture? name o outer).index with
          | none =>
              simp only [hindex] at none ⊢
              have hfound := ih linked.2.2 (fun e he => captures e (by simp_all))
                (fun e he => locals e (by simp_all)) none
              refine ⟨.refl d, rfl, .cons hfound.inner hfound.around, ?_, nofun, ?_⟩
              · refine linked_widen linked (.refl d) (fun _ _ _ => hfound.linked)
                  (.cons hfound.inner.grows hfound.grows_around) ?_ nofun
                exact fun _ _ _ c hc => .inl hc
              · intro _ e he
                rcases List.mem_cons.mp he with rfl | he
                · exact hlocal
                · exact hfound.global hindex e he
          | some passed =>
              simp only [hindex] at none ⊢
              obtain ⟨hfirst, hadd⟩ := List.append_eq_nil_iff.mp none
              have hfound := ih linked.2.2 (fun e he => captures e (by simp_all))
                (fun e he => locals e (by simp_all)) hfirst
              obtain ⟨hwidens, hsame, hplace, hmem⟩ := addCapture_spec rfl hadd hroom
              have hleads := hfound.leads passed hindex
              have hslot : slot? name (capture? name o outer).draft.layer.locals = Option.none := by
                rw [slot?_eq_of_grows hfound.inner.grows.layer.locals]
                exact slot?_layer_eq_none hlocal
              refine ⟨hwidens, hsame, .cons hfound.inner hfound.around, ?_, ?_, nofun⟩
              · refine linked_widen linked hwidens (fun _ _ _ => hfound.linked)
                  (.cons hfound.inner.grows hfound.grows_around) ?_ nofun
                rintro _ _ ⟨⟩ c hc
                refine (hmem c hc).imp_right ?_
                rintro rfl
                simp only [Capture.IsOpen, Bool.false_eq_true, if_false]
                exact hleads.lt
              · rintro _ ⟨⟩
                exact .through hplace rfl hslot hleads

end Draft

namespace Compiler

variable {c c' : Compiler} {name : String}

/-- The layers of a state have the slots of the layers of its contexts. -/
theorem slot?_of_suits {K : Context} (suits : K.Suits c) :
    slot? name K.layer.locals = slot? name c.draft.layer.locals :=
  slot?_eq_of_grows suits.layer.locals

/-- Widened drafts leave the compiler in order, and are all that is emitted. -/
theorem emits_of_widens (inOrder : c.InOrder) {d : Draft} {outer : List Draft}
    (inner : c.draft.Widens d) (around : List.Forall₂ Draft.Widens c.enclosing outer)
    (linked : Linked (d :: outer)) :
    c.Emits [] [] [] { c with draft := d, enclosing := outer } := by
  have hall : List.Forall₂ Draft.Widens c.drafts (d :: outer) := .cons inner around
  refine ⟨rfl, fun _ => ⟨rfl, rfl⟩, inner.grows, around.imp fun _ _ h => h.grows, rfl,
    .refl _ _, inOrder.fed.congr rfl rfl, inOrder.valid, fun h hh => ?_, fun e he => ?_, linked⟩
  · refine inOrder.live h (mem_rooted.mpr ((mem_rooted.mp hh).imp_right ?_))
    rintro ⟨e, he, hmem⟩
    obtain ⟨e', he', hw⟩ := exists_of_forall₂ hall he
    exact ⟨e', he', hw.handles_eq ▸ hmem⟩
  · obtain ⟨e', he', hw⟩ := exists_of_forall₂ hall he
    exact hw.inOrder (inOrder.drafts e' he')

/-- Looking a name up in the functions around. -/
theorem resolveCapture_spec {index : Option UInt8}
    (run : resolveCapture name c = .ok index c') :
    c.Silently c' (c.Emits [] [] [] c' ∧ c'.draft.locals = c.draft.locals ∧
      (∀ i, index = some i →
        Leads name c'.draft.layer.captures (c'.enclosing.map Draft.layer) i.toNat) ∧
      (index = none → ∀ o ∈ c.enclosing, o.local? name = none)) := by
  intro quiet
  unfold resolveCapture at run
  rw [bind_of_ok (get_apply c), bind_of_ok (set_apply _ _)] at run
  obtain ⟨_, mid, hissues, hindex⟩ := bind_eq_ok_iff.mp run
  cases hindex
  obtain ⟨hnone, rfl⟩ := forM_complain_spec hissues quiet
  refine ⟨⟨quiet.alarm, quiet.diagnostics⟩, fun inOrder => ?_⟩
  have hfound := Draft.capture?_spec inOrder.linked
    (fun e he => (inOrder.drafts e he).captures) (fun e he => (inOrder.drafts e he).locals) hnone
  exact ⟨emits_of_widens inOrder hfound.inner hfound.around hfound.linked, hfound.locals,
    hfound.leads, hfound.global⟩

/-- What a name refers to. -/
theorem resolve_spec {r : Reference} (run : resolve name c = .ok r c') :
    c.Silently c' (c.Emits [] [] [] c' ∧ ∀ K : Context, K.Suits c' → Refers K name r) := by
  intro quiet
  unfold resolve at run
  rw [bind_of_ok (get_apply c)] at run
  cases hlocal : c.draft.local? name with
  | some found =>
      obtain ⟨slot, l⟩ := found
      simp only [hlocal] at run
      obtain ⟨_, mid, hissues, hpure⟩ := bind_eq_ok_iff.mp run
      cases hpure
      obtain ⟨hnone, rfl⟩ := forM_complain_spec hissues quiet
      refine ⟨quiet, fun inOrder => ⟨.refl inOrder, fun K suits => .slot ?_⟩⟩
      have hdepth : l.depth ≠ none := by
        intro h
        simp [Draft.mentionIssues, h] at hnone
      have hbyte : (UInt8.ofNat slot).toNat = slot := by
        have := Draft.findLocal?_lt hlocal
        have := (inOrder.drafts _ c'.draft_mem_drafts).locals
        simp only [Draft.maxLocals] at this
        rw [UInt8.toNat_ofNat']
        omega
      rw [slot?_of_suits suits, hbyte]
      exact Draft.slot?_layer hlocal hdepth
  | none =>
      simp only [hlocal] at run
      obtain ⟨index, mid, hcapture, run⟩ := bind_eq_ok_iff.mp run
      cases index with
      | some i =>
          cases run
          obtain ⟨hquiet, hspec⟩ := resolveCapture_spec hcapture quiet
          refine ⟨hquiet, fun inOrder => ?_⟩
          obtain ⟨emits, hlocals, hleads, -⟩ := hspec inOrder
          refine ⟨emits, fun K suits => .upvalue ?_ ?_⟩
          · rw [slot?_of_suits suits]
            exact Draft.slot?_layer_eq_none (by rw [Draft.local?, hlocals]; exact hlocal)
          · exact (hleads i rfl).mono suits.layer.captures suits.outer
      | none =>
          obtain ⟨i, last, hname, hpure⟩ := bind_eq_ok_iff.mp run
          cases hpure
          obtain ⟨hquiet, hsecond⟩ := nameConstant_spec hname quiet
          obtain ⟨hquiet, hfirst⟩ := resolveCapture_spec hcapture hquiet
          refine ⟨hquiet, fun inOrder => ?_⟩
          obtain ⟨first, -, -, hglobal⟩ := hfirst inOrder
          obtain ⟨second, htext⟩ := hsecond first.inOrder
          have emits := first.trans second
          refine ⟨emits, fun K suits => .global (fun L hL => ?_) (htext K suits)⟩
          have hsuits := suits.earlier inOrder emits
          rcases List.mem_cons.mp hL with rfl | hL
          · rw [slot?_of_suits hsuits]
            exact Draft.slot?_layer_eq_none hlocal
          · have hall := hsuits.outer
            rw [List.forall₂_map_left_iff] at hall
            obtain ⟨o, ho, hgrows⟩ := exists_of_forall₂ hall hL
            rw [slot?_eq_of_grows hgrows.locals]
            exact Draft.slot?_layer_eq_none (hglobal rfl o ho)

end Compiler

end Lox
