import Lox.Proofs.Compile.Checked
import Lox.Proofs.Compile.Functions
import Lox.Proofs.Token.Lexer

/-!
# What the compiler keeps up

After a diagnostic the compiler goes on in the middle of anything: variables are half declared,
operands are missing, scopes were opened for tokens that never came. What it keeps up all the same
is little: the heap is valid and the drafts are live, the function of every draft keeps its slot,
and the depth of the scopes is what the code around it has made of it. This is enough for every
check of the checked compiler to pass.

Steps are charged for what they write: a byte of code with its line, a constant, a string. A token
that is taken pays for whatever is written before the next one is, and for the strings that are made
of its own text, so the bytes that a heap is charged for are bounded by those of the tokens.

## Main definitions

* `Compiler.due` — what the tokens that are still to be taken will pay.

* `Compiler.Sound` — the invariant, at a depth.
* `Compiler.Follows` — what a step leaves of a state, at a cost.
* `Compiler.Works` — the checked compiler and the compiler agree on a step.
-/

namespace Lox

/-- The bytes that a token pays for: its text, once for each string that may be made of it, and what
is written before the next token is taken. -/
def Token.price (t : Token) : Nat := 4 * (t.lexeme.utf8ByteSize + 1024)

/-- A token pays for what costs little, and for three strings of its own text. -/
theorem Token.le_price {t : Token} {cost : Nat} (little : cost ≤ 4096 + 3 * t.lexeme.utf8ByteSize) :
    cost ≤ t.price := by
  have hprice : t.price = 4 * t.lexeme.utf8ByteSize + 4096 := by rw [Token.price, Nat.mul_add]
  omega

/-! ### Drafts -/

namespace Draft

variable {d d' : Draft}

/-- The function itself keeps slot zero, and all variables have operands. -/
structure Seated (d : Draft) : Prop where
  callee : (d.locals.map Local.depth).getLast? = some (some 0)
  locals : d.locals.length ≤ maxLocals
  captures : d.captures.size ≤ maxCaptures

/-- A draft before and after a function inside it has been compiled. -/
structure Kept (d d' : Draft) : Prop where
  depth : d'.depth = d.depth
  chunk : d'.chunk = d.chunk
  locals : d'.locals.length = d.locals.length

theorem Kept.refl (d : Draft) : d.Kept d := ⟨rfl, rfl, rfl⟩

theorem Kept.trans {d'' : Draft} (first : d.Kept d') (second : d'.Kept d'') : d.Kept d'' :=
  ⟨second.depth.trans first.depth, second.chunk.trans first.chunk,
    second.locals.trans first.locals⟩

/-- Capturing keeps a draft. -/
theorem Widens.kept (widens : d.Widens d') : d.Kept d' :=
  ⟨by rw [widens.rest], by rw [widens.rest], widens.locals.length_eq.symm⟩

/-- Capturing leaves the function in its slot. -/
theorem Widens.seated (widens : d.Widens d') (seated : d.Seated) : d'.Seated := by
  have hdepths : d'.locals.map Local.depth = d.locals.map Local.depth := by
    have hshapes := congrArg (List.map Prod.snd) (shapes_eq_of_grows widens.locals)
    simpa [Function.comp_def, Local.shape] using hshapes
  exact ⟨by rw [hdepths]; exact seated.callee, widens.locals.length_eq ▸ seated.locals,
    widens.room seated.captures⟩

/-- Looking a name up in the functions around widens drafts, whatever it finds. -/
theorem capture?_widens (name : String) (d : Draft) (outer : List Draft) :
    d.Widens (capture? name d outer).draft ∧
      List.Forall₂ Widens outer (capture? name d outer).enclosing := by
  induction outer generalizing d with
  | nil => exact ⟨.refl d, .nil⟩
  | cons o others ih =>
      obtain ⟨hdraft, hothers⟩ := ih o
      unfold capture?
      split
      · exact ⟨addCapture_widens _ _,
          .cons (widens_captureLocal _ _) (List.forall₂_same.mpr fun e _ => .refl e)⟩
      · dsimp only
        split
        · exact ⟨.refl d, .cons hdraft hothers⟩
        · exact ⟨addCapture_widens _ _, .cons hdraft hothers⟩

/-- The newest local may be declared while the function keeps its slot. -/
theorem Seated.cons (seated : d.Seated) (l : Local) (room : d.locals.length < maxLocals) :
    ({ d with locals := l :: d.locals } : Draft).Seated :=
  ⟨by simp [List.getLast?_cons, seated.callee], room, seated.captures⟩

/-- The newest local is not the function itself. -/
theorem Seated.markNewest (seated : d.Seated) (more : 2 ≤ d.locals.length) :
    d.markNewest.Seated ∧ d.markNewest.locals.length = d.locals.length := by
  obtain ⟨callee, locals, captures⟩ := seated
  unfold Draft.markNewest
  split
  · exact ⟨⟨callee, locals, captures⟩, rfl⟩
  · rename_i l older hlocals
    rw [hlocals] at callee locals more ⊢
    obtain ⟨next, others, rfl⟩ := List.exists_cons_of_length_pos (show 0 < older.length by
      simp only [List.length_cons] at more
      omega)
    exact ⟨⟨by simpa [List.getLast?_cons] using callee, by simpa using locals, captures⟩, by simp⟩

/-- What a scope drops is not the function itself. -/
theorem getLast?_dropWhile {α : Type} {p : α → Bool} {l : List α}
    {a : α} (last : l.getLast? = some a)
    (stays : p a = false) : (l.dropWhile p).getLast? = some a := by
  induction l with
  | nil => cases last
  | cons b l ih =>
      rw [List.dropWhile_cons]
      split
      · rename_i hb
        cases l with
        | nil =>
            obtain rfl : b = a := by simpa using last
            rw [stays] at hb
            cases hb
        | cons c l => exact ih (by simpa [List.getLast?_cons] using last)
      · exact last

/-- Closing a scope leaves the function in its slot. -/
theorem Seated.dropWhile (seated : d.Seated) {depth : Nat} (pos : 0 < depth) :
    (∃ l ∈ d.locals, Draft.isWithin depth l = false) ∧
      ((d.locals.dropWhile (Draft.isWithin depth)).map Local.depth).getLast? =
        some (some 0) := by
  obtain ⟨callee, -, -⟩ := seated
  rw [List.getLast?_map, Option.map_eq_some_iff] at callee
  obtain ⟨l, hlast, hdepth⟩ := callee
  have hstays : Draft.isWithin depth l = false := by
    simp only [Draft.isWithin, hdepth, decide_eq_false_iff_not]
    omega
  refine ⟨⟨l, List.mem_of_getLast? hlast, hstays⟩, ?_⟩
  rw [List.getLast?_map, getLast?_dropWhile hlast hstays, Option.map_some, hdepth]

end Draft

namespace Compiler

/-! ### The invariant -/

/-- The bounds of a compilation. -/
structure Limits where
  /-- That some string token has no text. -/
  unreadable : Prop
  /-- The factor by which a collection multiplies the bytes it finds alive. -/
  growth : Nat

/-- All tokens that the compiler has at hand. -/
def window (c : Compiler) : List Token :=
  c.tokens.final :: c.previous :: c.current :: c.tokens.pending

/-- The invariant of the compiler between any two steps, and the depth of the scope that it is
in. -/
structure Sound (L : Limits) (depth : Nat) (c : Compiler) : Prop where
  final : c.tokens.final.kind = .endOfInput
  readable : ∀ t ∈ c.window, t.Readable ∨ L.unreadable
  valid : c.heap.Valid
  growth : c.heap.policy.growth = L.growth
  live : ∀ h ∈ c.rooted, c.heap.Live h
  drafts : ∀ d ∈ c.drafts, d.Seated
  depth : c.draft.depth = depth

/-- The bytes in use, and those that the drafts will take when they are finished. -/
def load (c : Compiler) : Nat :=
  c.heap.bytes + c.drafts.foldr (fun d bytes => d.chunk.size + bytes) 0

/-- What the tokens that are still to be taken will pay. -/
def due (c : Compiler) : Nat :=
  if c.current.kind = .endOfInput ∧ c.tokens.pending = [] then 0
  else c.current.price + (c.tokens.pending.map Token.price).sum

/-- The bytes in use, and those that the tokens not yet taken may still pay for. -/
def worth (c : Compiler) : Nat := c.load + c.due

/-- What a step of a given cost leaves of a state: the code of the function has grown, and the
functions around it are as before. A *tidy* step leaves the number of locals as it is. -/
structure Follows (L : Limits) (tidy : Bool) (cost depth : Nat) (c c' : Compiler) : Prop where
  sound : c'.Sound L depth
  unread : c'.unread ≤ c.unread
  code : c.draft.chunk.code.size ≤ c'.draft.chunk.code.size
  locals : tidy = true → c'.draft.locals.length = c.draft.locals.length
  enclosing : List.Forall₂ Draft.Kept c.enclosing c'.enclosing
  worth : c'.worth ≤ c.worth + cost

/-- The checked compiler and the compiler do the same, and they fault only if the tokens are too
many for the heap or cannot be read. -/
inductive Works {α : Type} (L : Limits) (tidy : Bool) (cost depth : Nat) (c : Compiler)
    (post : α → Compiler → Prop) :
    EStateM.Result Fault Compiler α → EStateM.Result Fault Compiler α → Prop
  | ok {a : α} {c' : Compiler} : c.Follows L tidy cost depth c' → post a c' →
      Works L tidy cost depth c post (.ok a c') (.ok a c')
  | overflow {c' : Compiler} : maxWord < (c.worth + cost) * L.growth →
      Works L tidy cost depth c post (.error .overflow c') (.error .overflow c')
  | unreadable {c' : Compiler} : L.unreadable →
      Works L tidy cost depth c post (.error .outOfRange c') (.error .outOfRange c')

/-- Nothing more is known of the answer and the state. -/
abbrev Any {α : Type} : α → Compiler → Prop := fun _ _ => True

variable {L : Limits} {tidy : Bool} {cost more depth depth' : Nat} {c c' c'' o : Compiler}
  {α β : Type}

namespace Follows

theorem refl (sound : c.Sound L depth) : c.Follows L tidy 0 depth c :=
  ⟨sound, Nat.le_refl _, Nat.le_refl _, fun _ => rfl, List.forall₂_same.mpr fun d _ => .refl d,
    Nat.le_refl _⟩

theorem trans (first : c.Follows L tidy cost depth c')
    (second : c'.Follows L tidy more depth' c'') :
    c.Follows L tidy (cost + more) depth' c'' := by
  refine ⟨second.sound, second.unread.trans first.unread, first.code.trans second.code,
    fun htidy => (second.locals htidy).trans (first.locals htidy),
    forall₂_trans (fun _ _ _ h h' => h.trans h') first.enclosing second.enclosing, ?_⟩
  have := first.worth
  have := second.worth
  omega

theorem mono (follows : c.Follows L tidy cost depth c') (le : cost ≤ more) :
    c.Follows L tidy more depth c' :=
  { follows with worth := follows.worth.trans (by omega) }

/-- A tidy step may be taken for one that need not be. -/
theorem loosen (follows : c.Follows L true cost depth c') : c.Follows L tidy cost depth c' :=
  { follows with locals := fun _ => follows.locals rfl }

/-- Other tokens, and other reports. -/
theorem reads (sound : c.Sound L depth)
    (rest : c' = { c with
      tokens := c'.tokens, current := c'.current, previous := c'.previous
      alarm := c'.alarm, diagnostics := c'.diagnostics })
    (window : ∀ t ∈ c'.window, t ∈ c.window) (final : c'.tokens.final = c.tokens.final)
    (unread : c'.unread ≤ c.unread) (due : c'.due ≤ c.due) : c.Follows L tidy 0 depth c' := by
  have hload : c'.load = c.load := by rw [rest]; rfl
  have hheap : c'.heap = c.heap := by rw [rest]
  have hdrafts : c'.drafts = c.drafts := by rw [rest]; rfl
  have hrooted : c'.rooted = c.rooted := by rw [rest]; rfl
  have hdraft : c'.draft = c.draft := by rw [rest]
  have henclosing : c'.enclosing = c.enclosing := by rw [rest]
  refine ⟨⟨final ▸ sound.final, fun t ht => sound.readable t (window t ht),
    hheap ▸ sound.valid, hheap ▸ sound.growth,
    by rw [hrooted, hheap]; exact sound.live, hdrafts ▸ sound.drafts, hdraft ▸ sound.depth⟩, unread,
    by rw [hdraft], fun _ => by rw [hdraft], ?_, ?_⟩
  · rw [henclosing]
    exact List.forall₂_same.mpr fun d _ => .refl d
  · unfold Compiler.worth
    omega

/-- Another draft. -/
theorem edit (sound : c.Sound L depth) {d : Draft} (seated : d.Seated)
    (handles : ∀ h ∈ d.handles, c.heap.Live h) (depth : d.depth = depth')
    (code : c.draft.chunk.code.size ≤ d.chunk.code.size)
    (locals : tidy = true → d.locals.length = c.draft.locals.length)
    (size : d.chunk.size ≤ c.draft.chunk.size + cost) :
    c.Follows L tidy cost depth' { c with draft := d } := by
  refine ⟨⟨sound.final, sound.readable, sound.valid, sound.growth, fun h hh => ?_,
    fun e he => ?_, depth⟩, Nat.le_refl _, code, locals, List.forall₂_same.mpr fun d _ =>
      .refl d, ?_⟩
  · rcases mem_rooted.mp hh with hheld | ⟨e, he, hmem⟩
    · exact sound.live h (mem_rooted.mpr (.inl hheld))
    · rcases List.mem_cons.mp he with rfl | he
      · exact handles h hmem
      · exact sound.live h (mem_rooted.mpr (.inr ⟨e, List.mem_cons_of_mem _ he, hmem⟩))
  · rcases List.mem_cons.mp he with rfl | he
    · exact seated
    · exact sound.drafts e (List.mem_cons_of_mem _ he)
  · simp only [Compiler.worth, load, Compiler.drafts, List.foldr_cons, Compiler.due]
    omega

/-- Another heap. -/
theorem charge (sound : c.Sound L depth) {heap : Heap} (valid : heap.Valid)
    (policy : heap.policy = c.heap.policy) (live : ∀ h ∈ c.rooted, heap.Live h)
    (bytes : heap.bytes ≤ c.heap.bytes + cost) :
    c.Follows L tidy cost depth { c with heap } := by
  refine ⟨⟨sound.final, sound.readable, valid, policy ▸ sound.growth, live,
    sound.drafts, sound.depth⟩, Nat.le_refl _, Nat.le_refl _, fun _ => rfl,
    List.forall₂_same.mpr fun d _ => .refl d, ?_⟩
  simp only [Compiler.worth, load, Compiler.drafts, Compiler.due]
  omega

end Follows

/-- The draft of a sound state keeps live what it holds. -/
theorem Sound.handles (sound : c.Sound L depth) : ∀ h ∈ c.draft.handles, c.heap.Live h :=
  fun h hh => sound.live h (mem_rooted.mpr (.inr ⟨_, c.draft_mem_drafts, hh⟩))

/-- The draft of a sound state is seated. -/
theorem Sound.seated (sound : c.Sound L depth) : c.draft.Seated := sound.drafts _ c.draft_mem_drafts

namespace Works

variable {post : α → Compiler → Prop} {final : β → Compiler → Prop}
  {r s : EStateM.Result Fault Compiler α}

/-- A run that is charged to another state. -/
theorem rebase {tidy' : Bool} {post' : α → Compiler → Prop}
    (works : Works L tidy cost depth o post r s)
    (le : o.worth + cost ≤ c.worth + more)
    (imp : ∀ a o', o.Follows L tidy cost depth o' → post a o' →
      c.Follows L tidy' more depth' o' ∧ post' a o') : Works L tidy' more depth' c post' r s := by
  cases works with
  | ok follows hpost => exact .ok (imp _ _ follows hpost).1 (imp _ _ follows hpost).2
  | overflow hover => exact .overflow (hover.trans_le (Nat.mul_le_mul_right _ le))
  | unreadable hbad => exact .unreadable hbad

/-- More is known of the answer and the state. -/
theorem imp {post' : α → Compiler → Prop} (works : Works L tidy cost depth c post r s)
    (imp : ∀ a c', c.Follows L tidy cost depth c' → post a c' → post' a c') :
    Works L tidy cost depth c post' r s :=
  works.rebase (Nat.le_refl _) fun a c' follows hpost => ⟨follows, imp a c' follows hpost⟩

theorem any (works : Works L tidy cost depth c post r s) : Works L tidy cost depth c Any r s :=
  works.imp fun _ _ _ _ => trivial

theorem mono (works : Works L tidy cost depth c post r s) (le : cost ≤ more) :
    Works L tidy more depth c post r s :=
  works.rebase (by omega) fun _ _ follows hpost => ⟨follows.mono le, hpost⟩

/-- A tidy step may be taken for one that need not be. -/
theorem loosen (works : Works L true cost depth c post r s) :
    Works L tidy cost depth c post r s :=
  works.rebase (Nat.le_refl _) fun _ _ follows hpost => ⟨follows.loosen, hpost⟩

/-- A run that has been paid for by a token. -/
theorem repaid {price : Nat} (works : Works L tidy cost depth' c' post r s)
    (follows : c.Follows L tidy 0 depth c') (gain : c'.worth + price ≤ c.worth)
    (enough : cost ≤ price) :
    Works L tidy 0 depth' c (fun a c'' => post a c'' ∧ c''.unread ≤ c'.unread ∧
      c''.worth + (price - cost) ≤ c.worth) r s := by
  refine works.rebase (by omega) fun a c'' follows' hpost => ?_
  have := follows'.worth
  exact ⟨{ follows.trans follows' with worth := by omega }, hpost, follows'.unread, by omega⟩

/-- What a step leaves as it is. -/
theorem stays {x y : CompileM α} (works : Works L tidy cost depth c post (x c) (y c))
    (still : ∀ a c', y c = .ok a c' → c'.previous = c.previous) :
    Works L tidy cost depth c (fun a c' => post a c' ∧ c'.previous = c.previous) (x c) (y c) := by
  generalize hy : y c = s at works
  generalize x c = r at works
  cases works with
  | ok follows hpost => exact .ok follows ⟨hpost, still _ _ hy⟩
  | overflow hover => exact .overflow hover
  | unreadable hbad => exact .unreadable hbad

/-- A run that answers. -/
theorem answer {x : CompileM α} {a : α} (run : x c = .ok a c')
    (follows : c.Follows L tidy cost depth c') (hpost : post a c') :
    Works L tidy cost depth c post (x c) (x c) := by
  rw [run]
  exact .ok follows hpost

/-- A change of the state. -/
theorem modify {f : Compiler → Compiler} (follows : c.Follows L tidy cost depth (f c)) :
    Works L tidy cost depth c Any ((modify f : CompileM Unit) c) ((modify f : CompileM Unit) c) :=
  .ok follows trivial

theorem pure (sound : c.Sound L depth) (a : α) (hpost : post a c) :
    Works L tidy 0 depth c post ((Pure.pure a : CompileM α) c) ((Pure.pure a : CompileM α) c) :=
  .ok (.refl sound) hpost

/-- A step in a run, each of them charged to a state of its own. -/
theorem step {b : Compiler} {tidy' : Bool} {x y : CompileM α} {f g : α → CompileM β}
    (first : Works L tidy cost depth b post (x o) (y o))
    (le : b.worth + cost ≤ c.worth + more)
    (rest : ∀ a o', b.Follows L tidy cost depth o' → post a o' →
      Works L tidy' more depth' c final (f a o') (g a o')) :
    Works L tidy' more depth' c final ((x >>= f) o) ((y >>= g) o) := by
  generalize hx : x o = r at first
  generalize hy : y o = s at first
  cases first with
  | ok follows hpost =>
      rw [bind_of_ok hx, bind_of_ok hy]
      exact rest _ _ follows hpost
  | overflow hover =>
      rw [bind_of_error hx, bind_of_error hy]
      exact .overflow (hover.trans_le (Nat.mul_le_mul_right _ le))
  | unreadable hbad =>
      rw [bind_of_error hx, bind_of_error hy]
      exact .unreadable hbad

/-- A run behind another one. -/
theorem after (works : Works L tidy more depth' o post r s)
    (follows : c.Follows L tidy cost depth o) : Works L tidy (cost + more) depth' c post r s := by
  have := follows.worth
  exact works.rebase (by omega) fun a c' follows' hpost => ⟨follows.trans follows', hpost⟩

/-- One step after another. -/
theorem bind {x y : CompileM α} {f g : α → CompileM β}
    (first : Works L tidy cost depth c post (x c) (y c))
    (rest : ∀ a c', c.Follows L tidy cost depth c' → post a c' →
      Works L tidy more depth' c' final (f a c') (g a c')) :
    Works L tidy (cost + more) depth' c final ((x >>= f) c) ((y >>= g) c) := by
  exact first.step (by omega) fun a c' follows hpost => (rest a c' follows hpost).after follows

/-- One more step of a run that is charged to another state. -/
theorem onward {b : Compiler} {total depth₀ depth₁ : Nat} {tidy' : Bool} {x y : CompileM α}
    {f g : α → CompileM β} (so : b.Follows L tidy cost depth₀ o)
    (next : Works L tidy more depth o post (x o) (y o))
    (le : b.worth + (cost + more) ≤ c.worth + total)
    (rest : ∀ a o', b.Follows L tidy (cost + more) depth o' → post a o' →
      Works L tidy' total depth₁ c final (f a o') (g a o')) :
    Works L tidy' total depth₁ c final ((x >>= f) o) ((y >>= g) o) := by
  have := so.worth
  exact next.step (by omega) fun a o' follows hpost => rest a o' (so.trans follows) hpost

/-- Looking at the state. -/
theorem read {f g : Compiler → CompileM α}
    (works : Works L tidy cost depth o post (f c c) (g c c)) :
    Works L tidy cost depth o post ((get >>= f) c) ((get >>= g) c) := by
  rw [bind_of_ok (get_apply c), bind_of_ok (get_apply c)]
  exact works

theorem ite {p : Prop} [Decidable p] {x y x' y' : CompileM α}
    (yes : p → Works L tidy cost depth o post (x c) (x' c))
    (no : ¬ p → Works L tidy cost depth o post (y c) (y' c)) :
    Works L tidy cost depth o post ((if p then x else y) c) ((if p then x' else y') c) := by
  split
  · exact yes ‹_›
  · exact no ‹_›

/-- A check that holds. -/
theorem require {holds : Compiler → Prop} [DecidablePred holds] {f : CompileM α}
    {t : EStateM.Result Fault Compiler α} (works : Works L tidy cost depth o post (f c) t)
    (passes : holds c) :
    Works L tidy cost depth o post ((do Compiler.require holds; f) c) t := by
  have hrun : Compiler.require holds c = .ok () c := by
    rw [Compiler.require, bind_of_ok (get_apply c), if_pos passes]
    rfl
  rw [bind_of_ok hrun]
  exact works

/-- A check of the answer that passes. -/
theorem ensure {holds : α → Compiler → Prop} [∀ a, DecidablePred (holds a)] {x : CompileM α}
    (works : Works L tidy cost depth c post (x c) (x c))
    (passes : ∀ a c', c.Follows L tidy cost depth c' → post a c' → holds a c') :
    Works L tidy cost depth c post
      ((do let a ← x; Compiler.require (holds a); return a) c) (x c) := by
  generalize hx : x c = r at works ⊢
  cases works with
  | ok follows hpost =>
      rw [bind_of_ok hx]
      exact .require (.ok follows hpost) (passes _ _ follows hpost)
  | overflow hover =>
      rw [bind_of_error hx]
      exact .overflow hover
  | unreadable hbad =>
      rw [bind_of_error hx]
      exact .unreadable hbad

/-- A check at the end that passes. -/
theorem confirm {holds : Compiler → Prop} [DecidablePred holds] {x y : CompileM Unit}
    {post : Unit → Compiler → Prop} (works : Works L tidy cost depth o post (x c) (y c))
    (passes : ∀ a c', o.Follows L tidy cost depth c' → post a c' → holds c') :
    Works L tidy cost depth o post ((do x; Compiler.require holds) c) (y c) := by
  generalize hx : x c = r at works
  generalize hy : y c = s at works
  cases works with
  | ok follows hpost =>
      rw [bind_of_ok hx, Compiler.require, bind_of_ok (get_apply _),
        if_pos (passes _ _ follows hpost)]
      exact .ok follows hpost
  | overflow hover =>
      rw [bind_of_error hx]
      exact .overflow hover
  | unreadable hbad =>
      rw [bind_of_error hx]
      exact .unreadable hbad

end Works

end Compiler

end Lox
