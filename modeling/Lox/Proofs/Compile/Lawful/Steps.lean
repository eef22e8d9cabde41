import Lox.Proofs.Compile.Acceptance.Steps
import Lox.Proofs.Compile.Lawful.Captures
import Lox.Proofs.Syntax.Unambiguous

/-!
# Steps that have nothing to complain about

A compiler that faces tokens of a program that keeps the rules consumes them and is silent. Whether
it is depends on where it is: on the locals of the functions that are open, on what these may
capture, and on how many constants the innermost of them already has. How far its jumps lead depends
on how much it writes in between.

A step that faults is not spoken about here.

## Main definitions

* `Compiler.place` — the functions that are open, without what is written and captured.
* `Compiler.Stands` — a compiler at a place, in front of given tokens, with room for constants.
* `Compiler.Spends` — a step that goes from place to place, and what it takes up.

## Main results

* `resolve_stays` — names that may be mentioned.
* `patchJump_stands`, `emitLoop_stands` — jumps that are short.
-/

namespace Lox

/-! ### Places -/

/-- A draft without what it captures, and without what is captured of it. -/
def Draft.bare (d : Draft) : Draft :=
  { d with locals := d.locals.map fun l => { l with captured := false }, captures := #[] }

/-- Capturing does not change what a draft is otherwise. -/
theorem Draft.Widens.bare_eq {d d' : Draft} (widens : d.Widens d') : d'.bare = d.bare := by
  have hlocals : d'.locals.map (fun l => { l with captured := false }) =
      d.locals.map fun l => { l with captured := false } := by
    have hall := widens.locals
    generalize d.locals = ls at hall ⊢
    generalize d'.locals = ls' at hall ⊢
    induction hall with
    | nil => rfl
    | cons hfirst _ ih =>
        obtain ⟨hname, hdepth⟩ := Prod.mk.inj hfirst.1
        simp [hname, hdepth, ih]
  rw [Draft.bare, Draft.bare, hlocals, widens.rest]

namespace Compiler

variable {c c' : Compiler} {α β : Type} {W : List (List (Nat × Nat))} {P P' P'' : List Draft}
  {room k l n m : Nat} {t : Token} {ts us rest : List Token} {next next' : TokenKind → Prop}
  {kind : TokenKind} {u : Unit}

/-- The functions that are open, without what they capture. Of the innermost one the code is left
out, too. -/
def place (c : Compiler) : List Draft :=
  { c.draft.bare with chunk := {} } :: c.enclosing.map Draft.bare

/-- How many bytes have been written for the innermost function. -/
def written (c : Compiler) : Nat := c.draft.chunk.code.size

/-- The names in scope at a place. -/
theorem scopesOf_place (c : Compiler) :
    Draft.scopesOf c.place = Draft.scopesOf c.drafts := by
  simp [Draft.scopesOf, place, drafts, Draft.bare, Function.comp_def]

/-- Capturing does not change the place. -/
theorem place_of_widens {d : Draft} {outer : List Draft} (inner : c.draft.Widens d)
    (around : List.Forall₂ Draft.Widens c.enclosing outer) :
    ({ c with draft := d, enclosing := outer } : Compiler).place = c.place := by
  have houter : outer.map Draft.bare = c.enclosing.map Draft.bare := by
    generalize c.enclosing = old at around
    induction around with
    | nil => rfl
    | cons hfirst _ ih => rw [List.map_cons, List.map_cons, hfirst.bare_eq, ih]
  simp [place, inner.bare_eq, houter]

/-! ### Tokens -/

/-- Nothing has been reported, and given tokens are ahead, all of them well formed. -/
structure Sees (c : Compiler) (ts : List Token) : Prop where
  faces : c.Faces (ts.map (·.kind))
  ahead : c.ahead = ts

/-- The kind of the token about to be consumed. -/
theorem Sees.current (sees : c.Sees ts) : c.current.kind = Grammar.upcoming ts := by
  rw [sees.faces.current]
  cases ts <;> rfl

/-- Only the tokens and the reports matter. -/
theorem Sees.congr (sees : c.Sees ts) (tokens : c'.tokens = c.tokens)
    (current : c'.current = c.current) (alarm : c'.alarm = c.alarm)
    (diagnostics : c'.diagnostics = c.diagnostics) : c'.Sees ts := by
  refine ⟨sees.faces.congr tokens current alarm diagnostics, ?_⟩
  rw [Compiler.ahead, tokens, current]
  exact sees.ahead

/-- Consuming a token. -/
theorem Sees.advance (sees : c.Sees (t :: ts)) : ∃ c', Compiler.advance c = .ok () c' ∧
    c'.Sees ts ∧ c'.previous = t ∧
    c' = { c with tokens := c'.tokens, current := c'.current, previous := c'.previous } := by
  obtain ⟨c', hrun, hfaces, -⟩ := sees.faces.advance
  obtain ⟨-, hreads⟩ := advance_reads hrun hfaces.quiet
  have reads := hreads sees.faces.fed.final sees.faces.fed.pending
  have hcurrent : c.current.kind ≠ .endOfInput := fun hend => by
    have hahead := sees.ahead
    rw [Compiler.ahead, if_pos hend] at hahead
    cases hahead
  have hahead : c.current :: c'.ahead = t :: ts := (reads.ahead hcurrent).symm.trans sees.ahead
  obtain ⟨ht, hts⟩ := List.cons.inj hahead
  exact ⟨c', hrun, ⟨hfaces, hts⟩, reads.previous.trans ht, reads.rest⟩

/-! ### Standing at a place -/

/-- A compiler at a place, in front of given tokens, that has room for so many constants. -/
structure Stands (W : List (List (Nat × Nat))) (P : List Draft) (room : Nat) (ts : List Token)
    (c : Compiler) : Prop where
  sees : c.Sees ts
  place : c.place = P
  roomy : Roomy c.drafts W
  room : c.draft.chunk.constants.size + room ≤ Chunk.maxConstants

namespace Stands

/-- Less room will do. -/
theorem mono (stands : c.Stands W P room ts) (le : k ≤ room) : c.Stands W P k ts :=
  ⟨stands.sees, stands.place, stands.roomy, by have := stands.room; omega⟩

/-- A state with the same drafts. -/
theorem withDrafts (stands : c.Stands W P room ts) (sees : c'.Sees us)
    (draft : c'.draft = c.draft) (enclosing : c'.enclosing = c.enclosing) :
    c'.Stands W P room us := by
  refine ⟨sees, ?_, ?_, draft ▸ stands.room⟩
  · rw [Compiler.place, draft, enclosing]
    exact stands.place
  · rw [drafts, draft, enclosing]
    exact stands.roomy

/-- A state in which the innermost function has other code, and constants for which there was
room. -/
theorem withChunk (stands : c.Stands W P (k + room) ts) {chunk : Chunk}
    (constants : chunk.constants.size ≤ c.draft.chunk.constants.size + k) :
    ({ c with draft := { c.draft with chunk } } : Compiler).Stands W P room ts := by
  refine ⟨stands.sees.congr rfl rfl rfl rfl, stands.place, ?_, ?_⟩
  · have hroomy := stands.roomy
    cases W with
    | nil => exact hroomy.elim
    | cons wanted others =>
        exact ⟨hroomy.1.update hroomy.1.locals rfl, hroomy.2⟩
  · have := stands.room
    simp only
    omega

/-- Consuming a token. -/
theorem advance (stands : c.Stands W P room (t :: ts)) : ∃ c', Compiler.advance c = .ok () c' ∧
    c'.Stands W P room ts ∧ c'.previous = t ∧ c'.written = c.written := by
  obtain ⟨c', hrun, hsees, hprevious, hrest⟩ := stands.sees.advance
  have hdraft : c'.draft = c.draft := by rw [hrest]
  have henclosing : c'.enclosing = c.enclosing := by rw [hrest]
  exact ⟨c', hrun, stands.withDrafts hsees hdraft henclosing,
    hprevious, by rw [written, hdraft]; rfl⟩

/-- Writing code. -/
theorem writes {bs : List UInt8} (stands : c.Stands W P room ts) (writes : c.Writes bs c') :
    c'.Stands W P room ts ∧ c'.written = c.written + bs.length := by
  refine ⟨?_, writes.size⟩
  rw [writes.rest]
  exact Stands.withChunk (k := 0) (by rwa [Nat.zero_add]) (Nat.le_refl _)

/-- The kind of the token about to be consumed. -/
theorem current (stands : c.Stands W P room ts) : c.current.kind = Grammar.upcoming ts :=
  stands.sees.current

/-- The token about to be consumed. -/
theorem current_cons (stands : c.Stands W P room (t :: ts)) : c.current.kind = t.kind :=
  stands.current

end Stands

/-! ### Steps -/

/-- A step that consumes given tokens if the token behind them allows it, and that goes from one
place to another. It takes up so many constants, and it writes at most so many bytes. -/
def Spends (W : List (List (Nat × Nat))) (P P' : List Draft) (ts : List Token)
    (next : TokenKind → Prop) (k n : Nat) (x : CompileM α) : Prop :=
  ∀ ⦃room rest c a c'⦄, c.Stands W P (k + room) (ts ++ rest) → next (Grammar.upcoming rest) →
    x c = .ok a c' → c'.Stands W P' room rest ∧ c'.written ≤ c.written + n

/-- A step that consumes no token and stays at its place. -/
abbrev Stays (W : List (List (Nat × Nat))) (P : List Draft) (k n : Nat) (x : CompileM α) : Prop :=
  Spends W P P [] Anything k n x

namespace Spends

theorem mono {x : CompileM α} (spends : Spends W P P' ts next k n x)
    (imp : ∀ kind, next' kind → next kind) (constants : k ≤ l) (bytes : n ≤ m) :
    Spends W P P' ts next' l m x := fun room rest c a c' stands hnext run => by
  have hroom : k + (l - k + room) = l + room := by omega
  obtain ⟨hstands, hwritten⟩ := @spends (l - k + room) rest c a c'
    (hroom ▸ stands) (imp _ hnext) run
  exact ⟨hstands.mono (by omega), by omega⟩

theorem throw (f : Fault) : Spends W P P' ts next k n (throw f : CompileM α) :=
  fun _ _ _ _ _ _ _ run => by cases run

theorem pure (a : α) : Stays W P 0 0 (Pure.pure a : CompileM α) := fun _ _ _ _ _ stands _ run => by
  cases run
  exact ⟨by rwa [Nat.zero_add] at stands, Nat.le_refl _⟩

theorem bind {x : CompileM α} {f : α → CompileM β} (first : Spends W P P' ts next k n x)
    (others : ∀ a, Spends W P' P'' us next' l m (f a))
    (fits : ∀ rest, next' (Grammar.upcoming rest) → next (Grammar.upcoming (us ++ rest))) :
    Spends W P P'' (ts ++ us) next' (k + l) (n + m) (x >>= f) := by
  intro room rest c b c' stands hnext run
  obtain ⟨a, mid, hfirst, hothers⟩ := bind_eq_ok_iff.mp run
  rw [List.append_assoc, Nat.add_assoc] at stands
  obtain ⟨hmid, hwritten⟩ := first stands (fits rest hnext) hfirst
  obtain ⟨hlast, hwritten'⟩ := others a hmid hnext hothers
  exact ⟨hlast, by omega⟩

/-- A step that consumes no token in front of another one. -/
theorem idle {x : CompileM α} {f : α → CompileM β} (first : Spends W P P' [] Anything k n x)
    (others : ∀ a, Spends W P' P'' ts next l m (f a)) :
    Spends W P P'' ts next (k + l) (n + m) (x >>= f) :=
  first.bind others fun _ _ => trivial

/-- A step that looks at the token behind another one. -/
theorem close {x : CompileM α} {f : α → CompileM β} (first : Spends W P P' ts next k n x)
    (others : ∀ a, Spends W P' P'' [] next' l m (f a)) (fits : ∀ kind, next' kind → next kind) :
    Spends W P P'' ts next' (k + l) (n + m) (x >>= f) := by
  have hboth := first.bind others fun _ hnext => fits _ hnext
  rwa [List.append_nil] at hboth

/-- A step that consumes no token behind another one. -/
theorem done {x : CompileM α} {f : α → CompileM β} (first : Spends W P P' ts next k n x)
    (others : ∀ a, Spends W P' P'' [] Anything l m (f a)) :
    Spends W P P'' ts next (k + l) (n + m) (x >>= f) :=
  first.close (fun a => (others a).mono (fun _ _ => trivial) (Nat.le_refl _) (Nat.le_refl _))
    fun _ hnext => hnext

/-- A case that does not come up. -/
theorem otherwise {p : Prop} [Decidable p] {x y : CompileM α} (no : ¬ p)
    (spends : Spends W P P' ts next k n y) : Spends W P P' ts next k n (if p then x else y) := by
  rwa [if_neg no]

/-- A token is consumed. -/
theorem advance {x : CompileM α} (others : Spends W P P' ts next k n x) :
    Spends W P P' (t :: ts) next k n (do Compiler.advance; x) := by
  intro room rest c a c' stands hnext run
  obtain ⟨mid, hadvance, hmid, -, hwritten⟩ := stands.advance
  rw [bind_of_ok hadvance] at run
  exact hwritten ▸ others hmid hnext run

/-- A token that is expected is there. -/
theorem expects (what : Expectation) (there : t.kind = kind) :
    Spends W P P [t] Anything 0 0 (Compiler.expect kind what) := by
  intro room rest c a c' stands _ run
  obtain ⟨mid, hadvance, hmid, -, hwritten⟩ := stands.advance
  have hkind : c.current.kind = kind := stands.current_cons.trans there
  rw [Compiler.expect, bind_of_ok (check_apply kind c), if_pos (by simpa using hkind),
    hadvance] at run
  cases run
  exact ⟨by rwa [Nat.zero_add] at hmid, Nat.le_of_eq hwritten⟩

theorem expect {what : Expectation} {x : CompileM α} (there : t.kind = kind)
    (others : Spends W P P' ts next k n x) :
    Spends W P P' (t :: ts) next k n (do Compiler.expect kind what; x) := by
  have hboth := (expects (W := W) (P := P) what there).bind (fun _ => others) fun _ _ => trivial
  rwa [Nat.zero_add, Nat.zero_add] at hboth

/-- A token that is looked for is there. -/
theorem accept {x y : CompileM α} (there : t.kind = kind) (yes : Spends W P P' ts next k n x) :
    Spends W P P' (t :: ts) next k n (do if ← Compiler.accept kind then x else y) := by
  intro room rest c a c' stands hnext run
  obtain ⟨mid, hadvance, hmid, -, hwritten⟩ := stands.advance
  have hkind : c.current.kind = kind := stands.current_cons.trans there
  rw [bind_of_ok (accept_of_eq hkind hadvance)] at run
  exact hwritten ▸ yes hmid hnext run

/-- A token that is looked for is not there. -/
theorem skip {x y : CompileM α} (no : Spends W P P' ts next k n y)
    (other : ∀ rest, next (Grammar.upcoming rest) → Grammar.upcoming (ts ++ rest) ≠ kind) :
    Spends W P P' ts next k n (do if ← Compiler.accept kind then x else y) := by
  intro room rest c a c' stands hnext run
  have hother : c.current.kind ≠ kind := stands.current ▸ other rest hnext
  rw [bind_of_ok (accept_of_ne hother)] at run
  exact no stands hnext run

/-- A token is there. -/
theorem check {x y : CompileM α} (yes : Spends W P P' ts next k n x)
    (same : ∀ rest, next (Grammar.upcoming rest) → Grammar.upcoming (ts ++ rest) = kind) :
    Spends W P P' ts next k n (do if ← Compiler.check kind then x else y) := by
  intro room rest c a c' stands hnext run
  have hkind : c.current.kind = kind := stands.current ▸ same rest hnext
  rw [bind_of_ok (check_apply kind c), if_pos (decide_eq_true hkind)] at run
  exact yes stands hnext run

/-- A token is not there. -/
theorem miss {x y : CompileM α} (no : Spends W P P' ts next k n y)
    (other : ∀ rest, next (Grammar.upcoming rest) → Grammar.upcoming (ts ++ rest) ≠ kind) :
    Spends W P P' ts next k n (do if ← Compiler.check kind then x else y) := by
  intro room rest c a c' stands hnext run
  have hkind : c.current.kind ≠ kind := stands.current ▸ other rest hnext
  rw [bind_of_ok (check_apply kind c), if_neg (by simpa using hkind)] at run
  exact no stands hnext run

/-- A token is not there, or nobody asks for it. -/
theorem pass {asked : Bool} {x y : CompileM α} (no : Spends W P P' ts next k n y)
    (other : ∀ rest, next (Grammar.upcoming rest) → asked = true →
      Grammar.upcoming (ts ++ rest) ≠ kind) :
    Spends W P P' ts next k n (do if asked && (← Compiler.check kind) then x else y) := by
  intro room rest c a c' stands hnext run
  have hother : (asked && decide (c.current.kind = kind)) = false := by
    cases asked with
    | false => rfl
    | true => simpa [stands.current] using other rest hnext rfl
  rw [bind_of_ok (check_apply kind c), hother] at run
  exact no stands hnext run

end Spends

/-! ### Writing -/

theorem emitByte_stays (byte : UInt8) : Stays W P 0 1 (emitByte byte) :=
  fun _ _ _ _ _ stands _ run => by
    rw [Nat.zero_add] at stands
    exact (stands.writes (emitByte_writes run)).imp_right Nat.le_of_eq

theorem emit_stays (op : OpCode) : Stays W P 0 1 (emit op) := emitByte_stays _

theorem emitWith_stays (op : OpCode) (operand : UInt8) : Stays W P 0 2 (emitWith op operand) :=
  (emit_stays op).idle fun _ => emitByte_stays operand

theorem emitReturn_stays : Stays W P 0 2 emitReturn := (emit_stays _).idle fun _ => emit_stays _

/-- Operations one after another. -/
theorem forM_emit_stays (ops : List OpCode) : Stays W P 0 ops.length (ops.forM emit) := by
  induction ops with
  | nil => exact .pure _
  | cons op ops ih =>
      exact ((emit_stays op).idle fun _ => ih).mono (fun _ h => h) (Nat.le_refl _) (by simp; omega)

/-- A constant for which there is room. -/
theorem makeConstant_stays (value : Value) : Stays W P 1 0 (makeConstant value) := by
  intro room rest c i c' stands _ run
  have hroom : c.draft.chunk.constants.size < Chunk.maxConstants := by
    have := stands.room
    omega
  rw [makeConstant, Chunk.addConstant?, if_pos hroom] at run
  cases run
  exact ⟨stands.withChunk (by simp), Nat.le_refl _⟩

theorem emitConstant_stays (value : Value) : Stays W P 1 2 (emitConstant value) :=
  ((makeConstant_stays value).idle fun _ => emitWith_stays _ _).mono (fun _ h => h) (Nat.le_refl _)
    (Nat.le_refl _)

theorem intern_stays (text : String) : Stays W P 0 0 (intern text) := by
  intro room rest c h c' stands _ run
  rw [Nat.zero_add] at stands
  unfold intern at run
  split at run <;> cases run
  exact ⟨stands.withDrafts (stands.sees.congr rfl rfl rfl rfl) rfl rfl, Nat.le_refl _⟩

theorem nameConstant_stays (name : String) : Stays W P 1 0 (nameConstant name) :=
  (intern_stays name).idle fun _ => makeConstant_stays _

/-- An operation without operand. -/
theorem emit_stands {op : OpCode} (stands : c.Stands W P room ts) (run : emit op c = .ok u c') :
    c'.Stands W P room ts ∧ c'.written = c.written + 1 := stands.writes (emit_writes run)

/-! ### Jumps -/

/-- A jump that is still open, and where its operand is. -/
theorem emitJump_stands {op : OpCode} {operand : Nat} (stands : c.Stands W P room ts)
    (run : emitJump op c = .ok operand c') :
    c'.Stands W P room ts ∧ c'.written = c.written + 3 ∧ operand = c.written + 1 := by
  obtain ⟨hwrites, hoperand⟩ := emitJump_writes run
  exact ⟨(stands.writes hwrites).1, (stands.writes hwrites).2, hoperand⟩

/-- A jump over as few bytes as its operand can hold. -/
theorem patchJump_stands {operand : Nat} (stands : c.Stands W P room ts)
    (short : c.written ≤ operand + 2 + maxJump) (run : patchJump operand c = .ok u c') :
    c'.Stands W P room ts ∧ c'.written = c.written := by
  have hshort : c.draft.chunk.code.size - operand - 2 ≤ maxJump := by
    rw [written] at short
    omega
  obtain ⟨_, mid, hsize, run⟩ := bind_eq_ok_iff.mp run
  cases hsize
  rw [if_pos hshort] at run
  cases run
  refine ⟨Stands.withChunk (k := 0) (by rwa [Nat.zero_add]) (Nat.le_refl _), ?_⟩
  simp [written, Chunk.patch]

/-- A jump back over as few bytes as its operand can hold. -/
theorem emitLoop_stands {target : Nat} (stands : c.Stands W P room ts)
    (short : c.written + 3 ≤ target + maxJump) (run : emitLoop target c = .ok u c') :
    c'.Stands W P room ts ∧ c'.written = c.written + 3 := by
  obtain ⟨_, c₁, hop, run⟩ := bind_eq_ok_iff.mp run
  obtain ⟨_, c₂, hsize, run⟩ := bind_eq_ok_iff.mp run
  cases hsize
  obtain ⟨hstands, hwritten⟩ := stands.writes (emit_writes hop)
  rw [OpCode.length_plain] at hwritten
  have hshort : c₁.draft.chunk.code.size - target + 2 ≤ maxJump := by
    have hsize : c₁.draft.chunk.code.size = c.written + 1 := hwritten
    have hlong : 2 ≤ maxJump := by decide
    omega
  rw [if_pos hshort] at run
  obtain ⟨_, c₃, hhigh, hlow⟩ := bind_eq_ok_iff.mp run
  obtain ⟨hlast, hwritten'⟩ :=
    hstands.writes ((emitByte_writes hhigh).trans (emitByte_writes hlow))
  exact ⟨hlast, by rw [hwritten', hwritten]; rfl⟩

/-! ### Names -/

/-- A name may be mentioned at a place: its local is not the one whose initializer is being
compiled, and the function may capture it. -/
structure Usable (W : List (List (Nat × Nat))) (P : List Draft) (name : String) : Prop where
  ready : ∀ d ∈ P.head?, ∀ l ∈ d.locals, l.name = name → l.depth ≠ none
  captured : ∀ v ∈ (Binding.of name (Draft.scopesOf P)).outside, ∃ wanted ∈ W.head?, v ∈ wanted

/-- A local of a function around is captured if the function may capture it. -/
theorem resolveCapture_stands {name : String} {index : Option UInt8}
    (stands : c.Stands W P room ts)
    (allowed : ∀ level slot, Binding.nearest? name (Draft.scopesOf c.enclosing) =
      some (level, slot) →
      ∃ wanted ∈ W.head?, (level + 1, slot) ∈ wanted)
    (run : resolveCapture name c = .ok index c') :
    c'.Stands W P room ts ∧ c'.written = c.written ∧
      index.isSome = (Binding.nearest? name (Draft.scopesOf c.enclosing)).isSome := by
  have hroomy := stands.roomy
  cases W with
  | nil => exact hroomy.elim
  | cons wanted others =>
  have hallowed : ∀ level slot,
      Binding.nearest? name (Draft.scopesOf c.enclosing) = some (level, slot) →
        (level + 1, slot) ∈ wanted := fun level slot hfound => by
    obtain ⟨_, hhead, hmem⟩ := allowed level slot hfound
    obtain rfl := Option.some.inj hhead
    exact hmem
  have hlookup := Draft.capture?_roomy hroomy.1 hroomy.2 hallowed
  obtain ⟨hwidens, hothers⟩ := Draft.capture?_widens name c.draft c.enclosing
  have hchunk : (c.draft.capture? name c.enclosing).draft.chunk = c.draft.chunk := by
    rw [hwidens.rest]
  rw [resolveCapture, bind_of_ok (get_apply c), bind_of_ok (set_apply _ _), hlookup.issues] at run
  cases run
  refine ⟨⟨stands.sees.congr rfl rfl rfl rfl,
    (place_of_widens hwidens hothers).trans stands.place, hlookup.drafts, ?_⟩, ?_, ?_⟩
  · rw [hchunk]
    exact stands.room
  · rw [written, hchunk]
    rfl
  · cases hfound : Binding.nearest? name (Draft.scopesOf c.enclosing) with
    | none =>
        rw [hlookup.missing hfound]
        rfl
    | some found =>
        obtain ⟨i, hi, -⟩ := hlookup.leads found.1 found.2 hfound
        rw [hi]
        rfl

/-- Nothing is wrong with a name that may be mentioned. -/
theorem resolve_stays {name : String} (usable : Usable W P name) :
    Stays W P (Binding.of name (Draft.scopesOf P)).constants 0 (resolve name) := by
  intro room rest c r c' stands _ run
  obtain ⟨hready, hcaptured⟩ := usable
  obtain rfl := stands.place
  have hscopes : Draft.scopesOf c.place =
      c.draft.locals.map (·.name) :: Draft.scopesOf c.enclosing := scopesOf_place c
  have hbinding := Binding.of_cons name (c.draft.locals.map (·.name)) (Draft.scopesOf c.enclosing)
  rw [← hscopes, Draft.newest?_locals] at hbinding
  unfold resolve at run
  rw [bind_of_ok (get_apply c), Draft.local?] at run
  cases hlocal : Draft.findLocal? name c.draft.locals with
  | some found =>
      obtain ⟨slot, l⟩ := found
      obtain ⟨hmem, hname⟩ := Draft.findLocal?_mem hlocal
      have hdepth : l.depth ≠ none :=
        hready _ rfl { l with captured := false } (List.mem_map_of_mem hmem) hname
      have hmention : Draft.mentionIssues l = [] := by
        cases hdepth' : l.depth with
        | none => exact absurd hdepth' hdepth
        | some depth => simp [Draft.mentionIssues, hdepth']
      rw [hlocal] at run
      simp only [hmention] at run
      cases run
      exact ⟨stands.mono (Nat.le_add_left _ _), Nat.le_refl _⟩
  | none =>
      rw [hlocal] at run hbinding
      obtain ⟨index, mid, hcapture, run⟩ := bind_eq_ok_iff.mp run
      have hallowed : ∀ level slot,
          Binding.nearest? name (Draft.scopesOf c.enclosing) = some (level, slot) →
            ∃ wanted ∈ W.head?, (level + 1, slot) ∈ wanted := by
        intro level slot hfound
        refine hcaptured _ ?_
        rw [hbinding]
        simp [hfound, Binding.outside]
      obtain ⟨hmid, hwritten, hindex⟩ := resolveCapture_stands stands hallowed hcapture
      cases index with
      | some i =>
          cases run
          exact ⟨hmid.mono (Nat.le_add_left _ _), Nat.le_of_eq hwritten⟩
      | none =>
          have hnone := Option.isNone_iff_eq_none.mp (by simpa using hindex.symm)
          have hglobal : Binding.of name (Draft.scopesOf c.place) = .global name := by
            rw [hbinding]
            simp [hnone]
          rw [hglobal] at hmid
          obtain ⟨i, last, hconstant, hpure⟩ := bind_eq_ok_iff.mp run
          cases hpure
          obtain ⟨hlast, hwritten'⟩ := nameConstant_stays name hmid trivial hconstant
          exact ⟨hlast, hwritten ▸ hwritten'⟩

end Compiler

end Lox
