import Lox.Proofs.Compile.Abreast.Steps
import Lox.Proofs.Compile.Resolution
import Lox.Proofs.Compile.Scoping
import Lox.Proofs.Compile.Totality.Upkeep

/-!
# Compilers that keep abreast: scopes and variables

Scopes hold the same locals in both compilers, so a name refers to the same slot or to the same
captured variable. It never refers to the slot of the function itself, which has no name. The name
of a global is a constant.

## Main definitions

* `Spot.declared` — where a name has been declared.
* `Reference.matching` — what the same name refers to.

## Main results

* `openScope_pace`, `closeScope_pace`.
* `variableName_pace`, `defineVariable_pace` — the two ends of a declaration.
* `resolve_pace` — names.
-/

namespace Lox

/-- A fact that matters in some cases only. -/
def Sheet.Fact.given (q : Prop) (f : Sheet.Fact) : Sheet.Fact :=
  ⟨fun s => q → f.holds s, fun s s' grows holds hq => f.stays s s' grows (holds hq)⟩

/-- A place after a name has been declared. In a scope there is a local for it. -/
def Spot.declared (depth : Nat) : Spot := ⟨depth, if 0 < depth then 2 else 1⟩

namespace Draft

variable {F : Front} {p : Spot} {s : Sheet} {heap heap' : Heap} {d d' e e' : Draft} {name : String}

/-- A name that a variable can have is not the name of the function itself. -/
theorem findLocal?_ne_zero {ls : List Local} {slot : Nat} {l callee : Local}
    (last : ls.getLast? = some callee) (other : name ≠ callee.name)
    (found : findLocal? name ls = some (slot, l)) : slot ≠ 0 := by
  induction ls with
  | nil => cases found
  | cons first older ih =>
      unfold findLocal? at found
      split at found
      · rename_i hname
        cases found
        intro hzero
        obtain rfl := List.length_eq_zero_iff.mp hzero
        have hfirst : l = callee := by simpa using last
        exact other (hfirst ▸ hname.symm)
      · cases older with
        | nil => cases found
        | cons next others => exact ih (by simpa [List.getLast?_cons_cons] using last) found

/-- Marking another local leaves the function itself as it is. -/
theorem getLast?_captureLocal {slot : Nat} (other : slot ≠ 0) (ls : List Local) :
    (captureLocal slot ls).getLast? = ls.getLast? := by
  induction ls with
  | nil => rfl
  | cons first older ih =>
      unfold captureLocal
      split
      · rename_i hslot
        cases older with
        | nil => exact absurd hslot.symm other
        | cons next others => simp [List.getLast?_cons_cons]
      · rw [List.getLast?_cons, List.getLast?_cons, ih]

/-- Capturing a variable changes no locals. -/
theorem locals_addCapture (d : Draft) (wanted : Capture) :
    (d.addCapture wanted).2.1.locals = d.locals := by
  unfold addCapture
  split
  · rfl
  · split <;> rfl

/-- Only what is captured is new on it. -/
theorem mem_addCapture {wanted c : Capture} (mem : c ∈ (d.addCapture wanted).2.1.captures.toList) :
    c ∈ d.captures.toList ∨ c = wanted := by
  unfold addCapture at mem
  split at mem
  · exact .inl mem
  · split at mem
    · exact .inl mem
    · simpa using mem

namespace Abreast

/-- Both drafts capture the same. -/
theorem widen (abreast : d.Abreast F p s heap heap' e) (widens : d.Widens d')
    (widens' : e.Widens e') (locals : e'.locals = d'.locals) (captures : e'.captures = d'.captures)
    (callee : d'.locals.getLast? = d.locals.getLast?)
    (proper : ∀ c ∈ d'.captures.toList, c.Proper) : d'.Abreast F p s heap heap' e' := by
  have hrest := widens.rest
  have hrest' := widens'.rest
  have hlength := widens.locals.length_eq
  rw [hrest, hrest']
  exact { abreast with
    locals, captures, proper
    enough := hlength ▸ abreast.enough
    callee := callee.trans abreast.callee
    room := hlength ▸ abreast.room }

/-- Both drafts capture a variable. -/
theorem addCapture (abreast : d.Abreast F p s heap heap' e) (wanted : Capture)
    (proper : wanted.Proper) :
    (e.addCapture wanted).1 = (d.addCapture wanted).1 ∧
      (e.addCapture wanted).2.2 = (d.addCapture wanted).2.2 ∧
      (d.addCapture wanted).2.1.Abreast F p s heap heap' (e.addCapture wanted).2.1 := by
  have hsame : (e.addCapture wanted).1 = (d.addCapture wanted).1 ∧
      (e.addCapture wanted).2.2 = (d.addCapture wanted).2.2 ∧
      (e.addCapture wanted).2.1.captures = (d.addCapture wanted).2.1.captures := by
    unfold Draft.addCapture
    rw [abreast.captures]
    split
    · exact ⟨rfl, rfl, abreast.captures⟩
    · split
      · exact ⟨rfl, rfl, abreast.captures⟩
      · exact ⟨rfl, rfl, rfl⟩
  refine ⟨hsame.1, hsame.2.1, abreast.widen (addCapture_widens d wanted)
    (addCapture_widens e wanted) ?_ hsame.2.2 ?_ fun c hc => ?_⟩
  · rw [locals_addCapture, locals_addCapture, abreast.locals]
  · rw [locals_addCapture]
  · rcases mem_addCapture hc with hold | rfl
    · exact abreast.proper c hold
    · exact proper

/-- Both drafts find the same local. It is not the function itself. -/
theorem local? (abreast : d.Abreast F p s heap heap' e) :
    e.local? name = d.local? name := by
  unfold Draft.local?
  rw [abreast.locals]

/-- The operand of a local that is found. -/
theorem slot_ne_zero (abreast : d.Abreast F p s heap heap' e) {slot : Nat} {l : Local}
    (named : name ≠ "") (found : d.local? name = some (slot, l)) :
    UInt8.ofNat slot ≠ 0 := by
  intro hzero
  have hslot := findLocal?_ne_zero abreast.callee named found
  have hlt := findLocal?_lt found
  have hroom := abreast.room
  have hbyte := congrArg UInt8.toNat hzero
  simp only [UInt8.toNat_ofNat'] at hbyte
  simp only [maxLocals] at hroom
  have : slot % 256 = 0 := hbyte
  omega

/-- Both drafts mark a local as captured. -/
theorem captureLocal (abreast : d.Abreast F p s heap heap' e) {slot : Nat} (other : slot ≠ 0) :
    ({ d with locals := captureLocal slot d.locals } : Draft).Abreast F p s heap heap'
      { e with locals := Draft.captureLocal slot e.locals } :=
  abreast.widen (widens_captureLocal d slot) (widens_captureLocal e slot)
    (by rw [abreast.locals]) abreast.captures (getLast?_captureLocal other _) abreast.proper

end Abreast

/-- What two drafts find when they look a name up in the functions around. -/
structure Lookup.Abreast (S : Setting) (around : List (Spot × Sheet)) (F : Front) (p : Spot)
    (s : Sheet) (heap heap' : Heap) (found found' : Lookup) : Prop where
  index : found'.index = found.index
  issues : found'.issues = found.issues
  draft : found.draft.Abreast F p s heap heap' found'.draft
  enclosing : Stacked S heap heap' around found.enclosing found'.enclosing

end Draft

/-- A name is looked up in the functions around. -/
theorem Stacked.capture? {S : Setting} {around : List (Spot × Sheet)} {heap heap' : Heap}
    {ds es : List Draft} {name : String} (stacked : Stacked S heap heap' around ds es)
    (named : name ≠ "") {F : Front} {p : Spot} {s : Sheet} {d e : Draft}
    (abreast : d.Abreast F p s heap heap' e) :
    Draft.Lookup.Abreast S around F p s heap heap' (d.capture? name ds) (e.capture? name es) := by
  induction stacked generalizing F p s d e with
  | nil => exact ⟨rfl, rfl, abreast, .nil⟩
  | @cons _ _ outer outer' _ others _ houter hscript hothers ih =>
      unfold Draft.capture?
      rw [houter.local?]
      cases hlocal : outer.local? name with
      | some found =>
          obtain ⟨slot, l⟩ := found
          have hslot := houter.slot_ne_zero named hlocal
          obtain ⟨hindex, hissues, hdraft⟩ := abreast.addCapture ⟨UInt8.ofNat slot, true⟩
            fun _ => hslot
          exact ⟨congrArg some hindex, congrArg (Draft.mentionIssues l ++ ·) hissues, hdraft,
            .cons (houter.captureLocal fun hzero =>
              hslot (UInt8.toNat_inj.mp hzero)) hscript hothers⟩
      | none =>
          obtain ⟨hindex, hissues, hdraft, hstacked⟩ := ih houter
          have hstill := (congrArg Draft.isScript
            (Draft.capture?_widens name outer others).1.rest).trans hscript
          dsimp only
          rw [hindex]
          cases hpassed : (outer.capture? name others).index with
          | none => exact ⟨rfl, hissues, abreast, .cons hdraft hstill hstacked⟩
          | some passed =>
              obtain ⟨hown, hmore, hasker⟩ := abreast.addCapture ⟨passed, false⟩
                fun h => by cases h
              exact ⟨congrArg some hown, congrArg₂ (· ++ ·) hissues hmore, hasker,
                .cons hdraft hstill hstacked⟩

namespace Compiler

variable {S : Setting} {around : List (Spot × Sheet)} {p p' : Spot} {s s' : Sheet} {k : Nat}
  {c c' d d' : Compiler} {closes : Bool} {pre : Sheet.Fact} {i j : UInt8}

/-! ### Scopes -/

/-- Both compilers are in a scope, or neither is. -/
theorem Abreast.inScope (abreast : Abreast S around p s c d) :
    inScope c = .ok (decide (0 < p.depth)) c ∧ inScope d = .ok (decide (0 < p.depth)) d := by
  rw [inScope_apply, inScope_apply, abreast.draft.depth, abreast.draft.depth']
  exact ⟨rfl, rfl⟩

theorem openScope_pace :
    Pace S around ⟨k, 1⟩ ⟨k + 1, 1⟩ closes pre openScope openScope any := by
  refine ⟨Reports.throughout.openScope, Reports.throughout.openScope, fun s c d abreast _ => ?_⟩
  have hdraft := abreast.draft
  rw [openScope_apply, openScope_apply]
  exact .ok (abreast.adjust { hdraft with
    depth := congrArg (· + 1) hdraft.depth
    depth' := congrArg (· + 1) hdraft.depth' } rfl rfl rfl) (.refl s) trivial

theorem ascend_pace :
    Pace S around ⟨k + 1, 1⟩ ⟨k, 1⟩ closes pre
      (modifyDraft fun d => { d with depth := d.depth - 1 })
      (modifyDraft fun d => { d with depth := d.depth - 1 }) any := by
  refine ⟨Reports.throughout.edit _, Reports.throughout.edit _, fun s c d abreast _ => ?_⟩
  have hdraft := abreast.draft
  exact .ok (abreast.adjust { hdraft with
    depth := congrArg (· - 1) hdraft.depth
    depth' := congrArg (· - 1) hdraft.depth' } rfl rfl rfl) (.refl s) trivial

/-- The instructions that take locals off the stack. -/
theorem discards_pace (ls : List Local) :
    Pace S around p p closes pre (ls.forM fun l => emit (discard l))
      (ls.forM fun l => emit (discard l)) any := by
  induction ls with
  | nil => exact .pure fun _ _ => trivial
  | cons l ls ih =>
      have hplain : (discard l).width = 0 ∧ discard l ≠ .giveBack := by
        unfold discard
        split <;> exact ⟨rfl, by decide⟩
      exact (emit_pace hplain.1 fun h => absurd h hplain.2).next ih

/-- The locals of a scope are forgotten. -/
theorem forget_pace :
    Pace S around ⟨k, 1⟩ ⟨k, 1⟩ closes pre
      (modifyDraft fun d => { d with locals := d.locals.dropWhile (Draft.isWithin (d.depth + 1)) })
      (modifyDraft fun d => { d with locals := d.locals.dropWhile (Draft.isWithin (d.depth + 1)) })
      any := by
  refine ⟨Reports.throughout.edit _, Reports.throughout.edit _, fun s c d abreast _ => ?_⟩
  have hdraft := abreast.draft
  have hkept := Draft.getLast?_dropWhile (p := Draft.isWithin (c.draft.depth + 1)) hdraft.callee
    (by simp [Draft.isWithin])
  have hlocals : d.draft.locals.dropWhile (Draft.isWithin (d.draft.depth + 1)) =
      c.draft.locals.dropWhile (Draft.isWithin (c.draft.depth + 1)) := by
    rw [hdraft.locals, hdraft.depth, hdraft.depth']
  exact .ok (abreast.adjust { hdraft with
    locals := hlocals
    enough := List.length_pos_of_mem (List.mem_of_getLast? hkept)
    callee := hkept
    room := (List.dropWhile_sublist _).length_le.trans hdraft.room } rfl rfl rfl) (.refl s) trivial

theorem closeScope_pace :
    Pace S around ⟨k + 1, 1⟩ ⟨k, 1⟩ closes pre closeScope closeScope any := by
  refine ascend_pace.next (.read (fun c => ⟨?_, ?_⟩) (fun _ _ => ⟨rfl, rfl⟩)
    fun s c d abreast hpre => ?_)
  · exact .bind (.forM (fun _ => Reports.throughout.emit _) _) fun _ => Reports.throughout.edit _
  · exact .bind (.forM (fun _ => Reports.throughout.emit _) _) fun _ => Reports.throughout.edit _
  · have hdraft := abreast.draft
    simp only [hdraft.depth, hdraft.depth', hdraft.locals]
    exact ((discards_pace _).next forget_pace).meets s c d abreast hpre

/-! ### Declarations -/

/-- Both compilers declare a local. -/
theorem Abreast.declared (abreast : Abreast S around ⟨k, 1⟩ s c d) {name : String}
    (room : c.draft.locals.length ≠ Draft.maxLocals) :
    Abreast S around ⟨k, 2⟩ s (c.declared name) (d.declared name) := by
  have hdraft := abreast.draft
  have hroom := hdraft.room
  refine abreast.adjust { hdraft with
    locals := by rw [hdraft.locals]
    enough := ?_
    callee := ?_
    room := ?_ } rfl rfl rfl
  · exact Nat.succ_le_succ hdraft.enough
  · rw [List.getLast?_cons, hdraft.callee, Option.getD_some]
  · simp only [List.length_cons]
    omega

theorem declareVariable_pace :
    Pace S around ⟨k, 1⟩ (Spot.declared k) closes pre declareVariable declareVariable any := by
  refine ⟨Reports.throughout.declareVariable, Reports.throughout.declareVariable,
    fun s c d abreast _ _ _ _ _ run run' quiet quiet' => .inl ⟨s, .refl s, ?_, trivial⟩⟩
  have hdepth : c.draft.depth = k := abreast.draft.depth
  have hdepth' : d.draft.depth = k := abreast.draft.depth'
  rcases declareVariable_cases run quiet with ⟨hzero, rfl⟩ | ⟨hpos, hroom, rfl⟩
  · rcases declareVariable_cases run' quiet' with ⟨-, rfl⟩ | ⟨hpos, -, -⟩
    · rw [Spot.declared, if_neg (by omega)]
      exact abreast
    · omega
  · rcases declareVariable_cases run' quiet' with ⟨hzero, -⟩ | ⟨-, -, rfl⟩
    · omega
    · rw [Spot.declared, if_pos (by omega), abreast.previous.lexeme]
      exact abreast.declared hroom

/-- A variable is named by both compilers. In the outermost scope its name is a constant. -/
theorem variableName_pace (what : Expectation) :
    Pace S around ⟨k, 1⟩ (Spot.declared k) closes pre (variableName what) (variableName what)
      fun i j => .given (k = 0) (.pooled (S.at around) i j) := by
  refine (expect_pace what (by decide)).next (declareVariable_pace.next ?_)
  have hrest : Reports true (do
      if ← inScope then return 0
      nameConstant (← get).previous.lexeme : CompileM UInt8) :=
    .bind Reports.throughout.inScope fun _ => .ite (.pure _) (.read (fun _ _ => rfl) fun _ =>
      Reports.throughout.nameConstant _)
  refine ⟨hrest, hrest, fun s c d abreast hpre => ?_⟩
  have hscope : inScope c = .ok (decide (0 < k)) c := abreast.inScope.1
  have hscope' : inScope d = .ok (decide (0 < k)) d := abreast.inScope.2
  rw [bind_of_ok hscope, bind_of_ok hscope']
  by_cases hdepth : 0 < k
  · rw [if_pos (decide_eq_true hdepth)]
    exact .ok abreast (.refl s) fun hzero => absurd hzero hdepth.ne'
  · rw [if_neg (by simpa using hdepth)]
    rw [bind_of_ok (get_apply _), bind_of_ok (get_apply _), abreast.previous.lexeme]
    exact ((nameConstant_pace _).mono (fun _ => id) fun _ _ _ holds _ =>
      holds).meets s c d abreast hpre

/-- Both compilers let the newest local be used. -/
theorem Abreast.initialized (abreast : Abreast S around ⟨k, 2⟩ s c d) :
    Abreast S around ⟨k, 2⟩ s c.initialized d.initialized := by
  have hdraft := abreast.draft
  have henough := hdraft.enough
  have hlocals := hdraft.locals
  obtain ⟨l, next, others, hsplit⟩ : ∃ l next others, c.draft.locals = l :: next :: others := by
    rcases hcases : c.draft.locals with _ | ⟨l, _ | ⟨next, others⟩⟩
    · rw [hcases] at henough
      cases henough
    · rw [hcases] at henough
      exact absurd henough (by simp)
    · exact ⟨l, next, others, rfl⟩
  rw [hsplit] at hlocals
  have hmark : c.draft.markNewest =
      { c.draft with locals := { l with depth := some k } :: next :: others } := by
    simp [Draft.markNewest, hsplit, hdraft.depth]
  have hmark' : d.draft.markNewest =
      { d.draft with locals := { l with depth := some k } :: next :: others } := by
    simp [Draft.markNewest, hlocals, hdraft.depth']
  have hcallee := hdraft.callee
  have hroom := hdraft.room
  rw [hsplit] at hcallee hroom
  unfold Compiler.initialized
  rw [hmark, hmark']
  exact abreast.adjust { hdraft with
    locals := rfl
    enough := by simp
    callee := by simpa [List.getLast?_cons_cons] using hcallee
    room := hroom } rfl rfl rfl

theorem markInitialized_pace :
    Pace S around (Spot.declared k) (Spot.declared k) closes pre markInitialized
      markInitialized any := by
  refine ⟨Reports.throughout.markInitialized, Reports.throughout.markInitialized,
    fun s c d abreast _ _ _ _ _ run run' _ _ => .inl ⟨s, .refl s, ?_, trivial⟩⟩
  have hdepth : c.draft.depth = k := abreast.draft.depth
  have hdepth' : d.draft.depth = k := abreast.draft.depth'
  rcases markInitialized_cases run with ⟨hzero, rfl⟩ | ⟨hpos, rfl⟩
  · rcases markInitialized_cases run' with ⟨-, rfl⟩ | ⟨hpos, -⟩
    · exact abreast
    · omega
  · rcases markInitialized_cases run' with ⟨hzero, -⟩ | ⟨-, rfl⟩
    · omega
    · rw [hdepth] at hpos
      rw [Spot.declared, if_pos hpos] at abreast ⊢
      exact abreast.initialized

/-- Both compilers end a declaration. -/
theorem defineVariable_pace
    (named : ∀ s, pre.holds s → k = 0 → (Sheet.Fact.pooled (S.at around) i j).holds s) :
    Pace S around (Spot.declared k) ⟨k, 1⟩ closes pre (defineVariable i) (defineVariable j)
      any := by
  refine ⟨Reports.throughout.defineVariable _, Reports.throughout.defineVariable _,
    fun s c d abreast hpre => ?_⟩
  have hscope : inScope c = .ok (decide (0 < k)) c := abreast.inScope.1
  have hscope' : inScope d = .ok (decide (0 < k)) d := abreast.inScope.2
  unfold defineVariable
  rw [bind_of_ok hscope, bind_of_ok hscope']
  by_cases hdepth : 0 < k
  · rw [if_pos (decide_eq_true hdepth), if_pos (decide_eq_true hdepth)]
    rintro _ _ _ _ run run' quiet quiet'
    rcases markInitialized_pace.meets s c d abreast hpre _ _ _ _ run run' quiet quiet' with
      ⟨s', hgrows, habreast, -⟩ | hdrained
    · refine .inl ⟨s', hgrows, ?_, trivial⟩
      rw [Spot.declared, if_pos hdepth] at habreast
      exact habreast.fewer (by simp)
    · exact .inr hdrained
  · rw [if_neg (by simpa using hdepth), if_neg (by simpa using hdepth)]
    rw [Spot.declared, if_neg hdepth] at abreast
    exact (emitPooled_pace .defineGlobal _ rfl (by decide) fun s hpre =>
      named s hpre (by omega)).meets s c d abreast hpre

/-! ### References -/

/-- What a name refers to in a piece, and what it refers to in the whole. -/
inductive Reference.Matches (F : Front) (s : Sheet) : Reference → Reference → Prop
  | slot {i : UInt8} : i ≠ 0 → Matches F s (.slot i) (.slot i)
  | upvalue (i : UInt8) : Matches F s (.upvalue i) (.upvalue i)
  | global {i j : UInt8} : (Sheet.Fact.pooled F i j).holds s → Matches F s (.global i) (.global j)

/-- References that match keep doing so. -/
def Reference.matching (F : Front) (r r' : Reference) : Sheet.Fact where
  holds s := Reference.Matches F s r r'
  stays s s' grows holds := by
    cases holds with
    | slot h => exact .slot h
    | upvalue i => exact .upvalue i
    | global h => exact .global ((Sheet.Fact.pooled F _ _).stays s s' grows h)

theorem emitRead_pace {r r' : Reference}
    (matching : ∀ s, pre.holds s → (r.matching (S.at around) r').holds s) :
    Pace S around p p closes pre (emitWith r.read.1 r.read.2)
      (emitWith r'.read.1 r'.read.2) any := by
  refine ⟨Reports.throughout.emitWith _ _, Reports.throughout.emitWith _ _,
    fun s c d abreast hpre => ?_⟩
  cases matching s hpre with
  | slot h => exact (emitWith_pace rfl rfl fun _ => h).meets s c d abreast hpre
  | upvalue i => exact (emitWith_pace rfl rfl fun h => by cases h).meets s c d abreast hpre
  | global h =>
      exact (emitPooled_pace .getGlobal (.pooled (S.at around) _ _) rfl (by decide)
        fun _ => id).meets s c d abreast h

theorem emitWrite_pace {r r' : Reference}
    (matching : ∀ s, pre.holds s → (r.matching (S.at around) r').holds s) :
    Pace S around p p closes pre (emitWith r.write.1 r.write.2) (emitWith r'.write.1 r'.write.2)
      any := by
  refine ⟨Reports.throughout.emitWith _ _, Reports.throughout.emitWith _ _,
    fun s c d abreast hpre => ?_⟩
  cases matching s hpre with
  | slot h => exact (emitWith_pace rfl rfl fun _ => h).meets s c d abreast hpre
  | upvalue i => exact (emitWith_pace rfl rfl fun h => by cases h).meets s c d abreast hpre
  | global h =>
      exact (emitPooled_pace .setGlobal (.pooled (S.at around) _ _) rfl (by decide)
        fun _ => id).meets s c d abreast h

/-- Both compilers look a name up in the functions around. -/
theorem resolveCapture_pace {name : String} (named : name ≠ "") :
    Pace S around p p closes pre (resolveCapture name) (resolveCapture name) same := by
  refine ⟨Reports.throughout.resolveCapture _, Reports.throughout.resolveCapture _,
    fun s c d abreast _ a c' b d' run run' quiet quiet' => ?_⟩
  unfold resolveCapture at run run'
  rw [bind_of_ok (get_apply _), bind_of_ok (set_apply _ _)] at run run'
  obtain ⟨_, mid, hissues, hindex⟩ := bind_eq_ok_iff.mp run
  obtain ⟨_, mid', hissues', hindex'⟩ := bind_eq_ok_iff.mp run'
  cases hindex
  cases hindex'
  obtain ⟨-, rfl⟩ := forM_complain_spec hissues quiet
  obtain ⟨-, rfl⟩ := forM_complain_spec hissues' quiet'
  obtain ⟨hindex, -, hdraft, hstacked⟩ := abreast.enclosing.capture? named abreast.draft
  have hlive : ∀ x : Compiler, (∀ e ∈ x.drafts, ∀ h ∈ e.handles, x.heap.Live h) →
      ∀ e ∈ (x.draft.capture? name x.enclosing).draft ::
        (x.draft.capture? name x.enclosing).enclosing,
        ∀ h ∈ e.handles, x.heap.Live h := fun x live e he h hh => by
    have hwidens := Draft.capture?_widens name x.draft x.enclosing
    have hall := List.Forall₂.cons hwidens.1 hwidens.2
    obtain ⟨e', he', hwidens⟩ := exists_of_forall₂ hall he
    exact live e' he' h (hwidens.handles_eq ▸ hh)
  have hscript := (congrArg Draft.isScript
    (Draft.capture?_widens name c.draft c.enclosing).1.rest).trans
    abreast.isScript
  exact .inl ⟨s, .refl s, abreast.redraft (.cons hdraft hscript hstacked) (hlive c abreast.live)
    (hlive d abreast.live'), hindex⟩

/-- Both compilers find what a name refers to. -/
theorem resolve_pace {name : String} (named : name ≠ "") :
    Pace S around p p closes pre (resolve name) (resolve name)
      (Reference.matching (S.at around)) := by
  refine ⟨Reports.throughout.resolve _, Reports.throughout.resolve _, fun s c d abreast hpre => ?_⟩
  unfold resolve
  rw [bind_of_ok (get_apply _), bind_of_ok (get_apply _), abreast.draft.local?]
  cases hlocal : c.draft.local? name with
  | some found =>
      obtain ⟨slot, l⟩ := found
      rintro a c' b d' run run' quiet quiet'
      obtain ⟨_, mid, hissues, hpure⟩ := bind_eq_ok_iff.mp run
      obtain ⟨_, mid', hissues', hpure'⟩ := bind_eq_ok_iff.mp run'
      cases hpure
      cases hpure'
      obtain ⟨-, rfl⟩ := forM_complain_spec hissues quiet
      obtain ⟨-, rfl⟩ := forM_complain_spec hissues' quiet'
      exact .inl ⟨s, .refl s, abreast, .slot (abreast.draft.slot_ne_zero named hlocal)⟩
  | none =>
      refine ((resolveCapture_pace named).agreed fun index => ?_).meets s c d abreast hpre
      cases index with
      | some i => exact .pure fun _ _ => .upvalue i
      | none =>
          exact (nameConstant_pace name).bind fun i j => .pure fun _ h => .global h.2

end Compiler

end Lox
