import Lox.Proofs.Compile.Functions
import Lox.Proofs.Compile.Lawful.Statements

/-!
# Functions that keep the rules

A function is compiled at a place of its own, inside the one at which its declaration stands. Its
parameters are the first locals there. What it captures is known from its tree before its body has
been compiled, so the code of its closure, which tells of each captured variable in two bytes, is no
longer than that.

## Main results

* `parameters_spends` — the parameters.
* `functionBody_spends`, `funDeclaration_spends` — a function, given that its body is consumed.
-/

namespace Lox

namespace Draft

/-- A draft with more parameters. They are given in order. -/
def taking (o : Draft) (names : List String) : Draft :=
  { o.declaring names.reverse with arity := o.arity + names.length }

/-- One parameter. -/
theorem taking_singleton (o : Draft) (name : String) :
    o.taking [name] = ({ o with arity := o.arity + 1 } : Draft).declaring [name] := rfl

/-- Parameters after the first one. -/
theorem taking_taking (o : Draft) (name : String) (names : List String) :
    (o.taking [name]).taking names = o.taking (name :: names) := by
  simp [taking, declaring, Nat.add_assoc, Nat.add_comm 1]

/-- Parameters are declared in the scope of the body. -/
theorem declares_taking {o : Draft} {name : String} {names : List String} (new : name ∉ names)
    (free : o.declares name = false) : (o.taking names).declares name = false :=
  declares_declaring (by simpa using new) free

end Draft

namespace Compiler

open Grammar

variable {W : List (List (Nat × Nat))} {P P' : List Draft} {o d : Draft} {outer : List Draft}
  {c c' : Compiler} {n s room k m : Nat} {left right brace t : Token} {ts us ps rest : List Token}
  {wanted : List (Nat × Nat)} {isLocal : Bool} {own : List String} {around : List (List String)}
  {parameters : List String} {body : List Stmt} {next : TokenKind → Prop} {x : CompileM Unit}
  {inner : CompileM Unit}

/-! ### Parameters -/

/-- A local that needs no initializer. -/
theorem local_spends (name : t.kind = .identifier) (deep : 0 < o.depth)
    (new : o.declares t.lexeme = false) (slot : o.locals.length < Draft.maxLocals)
    (others : Spends W (o.declaring [t.lexeme] :: outer) P' ts next k m x) :
    Spends W (o :: outer) P' (t :: ts) next k m (do
      defineVariable (← variableName .parameterName)
      x) :=
  ((variableName_spends_local name deep new slot).bind (fun i =>
    (defineVariable_spends_initializing deep i).idle fun _ => others) fun _ _ => trivial).mono
      (fun _ h => h) (by omega) (by omega)

/-- One parameter. -/
theorem parameter_spends (name : t.kind = .identifier) (deep : 0 < o.depth)
    (new : o.declares t.lexeme = false) (few : o.arity < Draft.maxArity)
    (slot : o.locals.length < Draft.maxLocals)
    (others : Spends W (o.taking [t.lexeme] :: outer) P' ts next k m x) :
    Spends W (o :: outer) P' (t :: ts) next k m (do
      if (← get).draft.arity = Draft.maxArity then complainAhead .tooManyParameters
      else modifyDraft fun d => { d with arity := d.arity + 1 }
      defineVariable (← variableName .parameterName)
      x) := by
  intro room rest c _ c' stands hnext run
  have harity : c.draft.arity = o.arity := by
    have hhead := congrArg Draft.arity stands.head
    exact hhead
  rw [bind_of_ok (get_apply c), if_neg (by omega)] at run
  obtain ⟨_, c₁, hcount, hrest⟩ := bind_eq_ok_iff.mp run
  cases hcount
  have hhead : ({ c.draft.bare with chunk := {}, arity := c.draft.arity + 1 } : Draft) =
      { o with arity := o.arity + 1 } := by
    rw [← stands.head]
    rfl
  have hcounted := stands.adjust (d := { c.draft with arity := c.draft.arity + 1 }) hhead rfl
    stands.locals (Nat.le_refl _)
  rw [Draft.taking_singleton] at others
  have hlast := local_spends (o := { o with arity := o.arity + 1 }) name deep new slot others
    hcounted hnext hrest
  exact hlast

/-- The parameters of a function that has some. -/
theorem parameters_spends (parsed : Parameters ps parameters) (some : parameters ≠ [])
    (deep : 0 < o.depth) (distinct : parameters.Nodup)
    (new : ∀ name ∈ parameters, o.declares name = false)
    (few : o.arity + parameters.length ≤ Draft.maxArity)
    (slots : o.locals.length + parameters.length ≤ Draft.maxLocals) (s : Nat) :
    Spends W (o :: outer) (o.taking parameters :: outer) ps (· = .rightParen) 0 0
      (Compiler.parameters s) := by
  induction parsed generalizing o s with
  | none => exact absurd rfl some
  | last name =>
      rw [List.length_singleton] at few slots
      cases s with
      | zero => exact .throw _
      | succ s =>
          refine parameter_spends name deep (new _ (List.mem_singleton_self _)) few slots (.skip
            ((Spends.pure _).mono (fun _ _ => trivial) (Nat.le_refl _) (Nat.le_refl _)) ?_)
          intro rest hnext
          rw [List.nil_append, hnext]
          decide
  | @more name comma ts following others hname hcomma parsed ih =>
      obtain ⟨hfresh, hothers⟩ := List.nodup_cons.mp distinct
      obtain ⟨hfirst, hnew⟩ := List.forall_mem_cons.mp new
      rw [List.length_cons] at few slots
      cases s with
      | zero => exact .throw _
      | succ s =>
          have hlater : ∀ other ∈ following :: others,
              (o.taking [name.lexeme]).declares other = false := fun other hother =>
            Draft.declares_taking (fun hmem => hfresh (List.mem_singleton.mp hmem ▸ hother))
              (hnew other hother)
          have hmore := ih (o := o.taking [name.lexeme]) nofun deep hothers hlater
            (by simp [Draft.taking] at few ⊢; omega)
            (by simp [Draft.taking, Draft.declaring] at slots ⊢; omega) s
          rw [Draft.taking_taking] at hmore
          exact parameter_spends hname deep hfirst (by omega) (by omega) (.accept hcomma hmore)

/-! ### Bodies -/

/-- What a closure tells of the captured variables. -/
theorem captures_stay (captures : List Capture) :
    Stays W P 0 (2 * captures.length) (captures.forM fun capture => do
      emitByte (if capture.isLocal then 1 else 0)
      emitByte capture.index) := by
  induction captures with
  | nil => exact .pure _
  | cons capture captures ih =>
      exact (((emitByte_stays _).idle fun _ => emitByte_stays _).idle fun _ => ih).mono
        (fun _ h => h) (Nat.le_refl _) (by rw [List.length_cons]; omega)

/-- A closure is made of a function. -/
theorem closure_stays (f : Handle) (captures : List Capture) :
    Stays W P 1 (2 + 2 * captures.length) (do
      emitWith .closure (← makeConstant (.object f))
      captures.forM fun capture => do
        emitByte (if capture.isLocal then 1 else 0)
        emitByte capture.index) :=
  ((makeConstant_stays _).idle fun i => (emitWith_stays _ i).idle fun _ =>
    captures_stay captures).mono (fun _ h => h) (Nat.le_refl _) (Nat.le_of_eq (Nat.zero_add _))

theorem finishFunction_stays : Stays W P 0 2 finishFunction := by
  intro room rest c h c' stands hnext run
  obtain ⟨_, c₁, hreturn, run⟩ := bind_eq_ok_iff.mp run
  obtain ⟨hstands, hwritten⟩ := emitReturn_stays stands hnext hreturn
  split at run <;> cases run
  exact ⟨hstands.withDrafts (hstands.sees.congr rfl rfl rfl rfl) rfl rfl, hwritten⟩

/-- The place of a function that has just been started. -/
def fresh (name : Handle) : Draft := { name := some name, isScript := false }

theorem settled_fresh (name : Handle) : (fresh name).Settled := fun l hl => by
  obtain rfl := List.mem_singleton.mp hl
  exact ⟨0, Nat.le_refl _, rfl⟩

/-- Entering a function. What it will capture is told beforehand. -/
theorem Stands.entered {captured : List (Nat × Nat)}
    (stands : c.Stands (wanted :: W) (o :: outer) room ts) (name : Handle)
    (settled : o.Settled) (few : captured.dedup.length ≤ Draft.maxCaptures)
    (outward : captured.filterMap outward? ⊆ wanted) (bound : k ≤ Chunk.maxConstants) :
    (c.entered name).Stands (captured :: wanted :: W)
      (fresh name :: c.draft.bare :: c.enclosing.map Draft.bare) k ts := by
  refine ⟨stands.sees.congr rfl rfl rfl rfl, rfl,
    ⟨⟨(by decide : 1 ≤ Draft.maxLocals), .nil, few, ?sources, ?outward,
    ?ready⟩, stands.roomy⟩, ?room⟩
  case sources => exact fun i hi => absurd hi (Nat.not_lt_zero _)
  case outward =>
    exact fun v hv v' hv' => ⟨wanted, rfl, outward (List.mem_filterMap.mpr ⟨v, hv, hv'⟩)⟩
  case ready =>
    rintro d ⟨⟩ l hl
    have hlocals : c.draft.locals.map (fun l => { l with captured := false }) = o.locals :=
      congrArg Draft.locals stands.head
    obtain ⟨k, -, hk⟩ := settled _ (hlocals ▸ List.mem_map_of_mem hl)
    exact fun hnone => by simp [hnone] at hk
  case room =>
    rw [show (c.entered name).draft.chunk.constants.size = 0 from rfl]
    omega

/-- Leaving a function. The function around is where it was, but it may have captured more. -/
theorem Stands.leave (stands : c.Stands (wanted :: W) (d :: o :: outer) k ts) :
    ∃ e others, c.enclosing = e :: others ∧ e.bare = o ∧
      c.left = { c with draft := e, enclosing := others } ∧
      (c.left.draft.chunk.constants.size + room ≤ Chunk.maxConstants →
        c.left.Stands W ({ o with chunk := {} } :: outer) room ts) := by
  obtain ⟨e, others, heq, he, hothers⟩ :=
    List.map_eq_cons_iff.mp (List.cons.inj stands.place).2
  have hleft : c.left = { c with draft := e, enclosing := others } := by
    simp only [Compiler.left, heq]
  refine ⟨e, others, heq, he, hleft, fun hroom => ?_⟩
  have hroomy := stands.roomy
  rw [drafts, heq] at hroomy
  rw [hleft] at hroom ⊢
  refine ⟨stands.sees.congr rfl rfl rfl rfl, ?_, hroomy.2, hroom⟩
  rw [← he, ← hothers]
  rfl

/-- The place of the body of a function, behind its parameters. -/
theorem placed_body {others : List Draft} (scopes : Draft.scopesOf others = around)
    (name : Handle) (parameters : List String) :
    Placed ((fresh name).deeper.taking parameters) others true (parameters.reverse ++ [""])
      around := by
  have hfresh : Placed (fresh name).deeper others true [""] around := by
    refine ⟨rfl, scopes, rfl, fun l hl => ?_, fun _ => rfl⟩
    obtain rfl := List.mem_singleton.mp hl
    exact ⟨0, Nat.zero_le _, rfl⟩
  obtain ⟨hnames, henclosing, hdepth, hsettled, hinner⟩ := hfresh.declaring parameters.reverse
  exact ⟨hnames, henclosing, hdepth, hsettled, hinner⟩

/-- The names that the body of a function declares are new behind its parameters. -/
theorem declares_body (name : Handle) (distinct : (parameters ++ Stmt.names body).Nodup) :
    ∀ x ∈ Stmt.names body, ((fresh name).deeper.taking parameters).declares x = false := by
  have hsettled : (fresh name).Settled := fun l hl => by
    obtain rfl := List.mem_singleton.mp hl
    exact ⟨0, Nat.le_refl _, rfl⟩
  exact fun x hx => Draft.declares_taking
    (fun hmem => (List.nodup_append.mp distinct).2.2 x hmem x hx rfl)
    (Draft.declares_deeper hsettled x)

/-- What is asked of the tokens of a body: they are consumed at every place that its tree tells
of. -/
def BodySpends (parameters : List String) (body : List Stmt) (around : List (List String))
    (ts : List Token) (m : Nat) (inner : CompileM Unit) : Prop :=
  ∀ ⦃W d others⦄, Placed d others true (parameters.reverse ++ [""]) around →
    (∀ name ∈ Stmt.names body, d.declares name = false) →
      ∃ P', Spends (Stmt.captured parameters body around :: W) (d :: others) (P' :: others) ts
        Anything (Stmt.constantsAll true (parameters.reverse ++ [""]) around body) m inner

/-- The parameters between their parentheses. -/
theorem signature_stands {rest : CompileM Unit} {u : Unit}
    (stands : c.Stands W (o :: outer) room (left :: (ps ++ right :: us)))
    (leftParen : left.kind = .leftParen) (parsed : Parameters ps parameters)
    (rightParen : right.kind = .rightParen) (deep : 0 < o.depth) (distinct : parameters.Nodup)
    (new : ∀ name ∈ parameters, o.declares name = false)
    (few : o.arity + parameters.length ≤ Draft.maxArity)
    (slots : o.locals.length + parameters.length ≤ Draft.maxLocals)
    (run : (do
      expect .leftParen .parenAfterFunctionName
      if !(← check .rightParen) then Compiler.parameters s
      expect .rightParen .parenAfterParameters
      rest) c = .ok u c') :
    ∃ mid, rest mid = .ok u c' ∧ mid.Stands W (o.taking parameters :: outer) room us := by
  obtain ⟨c₁, run, hstands₁, -⟩ := stands.expect leftParen run
  rw [bind_of_ok (check_apply .rightParen c₁)] at run
  by_cases hnone : parameters = []
  · subst hnone
    cases parsed
    have hkind : c₁.current.kind = .rightParen := hstands₁.current_cons.trans rightParen
    rw [if_neg (by simp [hkind])] at run
    obtain ⟨mid, run, hmid, -⟩ := hstands₁.expect rightParen run
    exact ⟨mid, run, hmid⟩
  · have hkind : c₁.current.kind ≠ .rightParen := by
      rcases parameters_derive parsed with ⟨-, hnil⟩ | hderives
      · exact absurd hnil hnone
      · exact hstands₁.current ▸ upcoming_ne hderives (by decide) rfl _
    rw [if_pos (by simp [hkind])] at run
    obtain ⟨_, c₂, hparameters, run⟩ := bind_eq_ok_iff.mp run
    obtain ⟨hstands₂, -⟩ := parameters_spends parsed hnone deep distinct new few slots s
      (hstands₁.mono (Nat.le_of_eq (Nat.zero_add _)))
      (show upcoming (right :: us) = .rightParen from rightParen) hparameters
    obtain ⟨mid, run, hmid, -⟩ := hstands₂.expect rightParen run
    exact ⟨mid, run, hmid⟩

theorem functionBody_spends (placed : Placed o outer isLocal own around)
    (leftParen : left.kind = .leftParen) (parsed : Parameters ps parameters)
    (rightParen : right.kind = .rightParen) (leftBrace : brace.kind = .leftBrace)
    (bounded : Stmt.Bounded parameters body (own :: around))
    (outward : (Stmt.captured parameters body (own :: around)).filterMap outward? ⊆ wanted)
    (inside : BodySpends parameters body (own :: around) us m inner) :
    Spends (wanted :: W) (o :: outer) (o :: outer) (left :: (ps ++ right :: brace :: us)) Anything 1
      (2 + 2 * (Stmt.captured parameters body (own :: around)).length) (functionBody inner s) := by
  intro room rest c _ c' stands _ run
  simp only [List.cons_append, List.append_assoc] at stands
  rw [functionBody, bind_of_ok (get_apply c)] at run
  obtain ⟨name, c₁, hintern, run⟩ := bind_eq_ok_iff.mp run
  rw [bind_of_ok (enterFunction_apply c₁ name)] at run
  obtain ⟨hstands₁, hwritten₁⟩ := intern_stays _ (stands.mono (Nat.le_of_eq (Nat.zero_add _)))
    trivial hintern
  have hdedup : (Stmt.captured parameters body (own :: around)).dedup =
      Stmt.captured parameters body (own :: around) := List.dedup_idem
  have hentered := hstands₁.entered name placed.settled (by rw [hdedup]; exact bounded.captures)
    outward bounded.constants
  obtain ⟨_, c₃, hopen, run⟩ := bind_eq_ok_iff.mp run
  obtain ⟨hopened, -⟩ := openScope_stays (hentered.mono (Nat.le_of_eq (Nat.zero_add _))) trivial
    hopen
  have harity := bounded.arity
  obtain ⟨c₄, run, hstands₄⟩ := signature_stands hopened leftParen parsed rightParen
    (Nat.succ_pos _) (List.nodup_append.mp bounded.distinct).1
    (fun x _ => Draft.declares_deeper (settled_fresh name) x)
    (by simpa [fresh, Draft.deeper] using harity)
    (by
      rw [show (fresh name).deeper.locals.length = 1 from rfl]
      simp only [Draft.maxArity, Draft.maxLocals] at harity ⊢
      omega) run
  obtain ⟨c₅, run, hstands₅, -⟩ := hstands₄.expect leftBrace run
  obtain ⟨_, c₆, hinner, run⟩ := bind_eq_ok_iff.mp run
  have hscopes : Draft.scopesOf (c₁.draft.bare :: c₁.enclosing.map Draft.bare) = own :: around :=
    (congrArg Draft.scopesOf hstands₁.place).trans placed.scopes
  obtain ⟨P', hspends⟩ := inside (placed_body hscopes name parameters)
    (declares_body name bounded.distinct)
  obtain ⟨hstands₆, -⟩ := @hspends 0 rest _ _ _ hstands₅ trivial hinner
  obtain ⟨f, c₇, hfinish, run⟩ := bind_eq_ok_iff.mp run
  obtain ⟨hstands₇, -⟩ := finishFunction_stays (hstands₆.mono (Nat.le_of_eq (Nat.zero_add _)))
    trivial hfinish
  rw [bind_of_ok (get_apply c₇), bind_of_ok (leaveFunction_apply c₇)] at run
  have hcount : c₇.draft.captures.size ≤ (Stmt.captured parameters body (own :: around)).length :=
    hdedup ▸ hstands₇.roomy.1.count hstands₇.roomy.2
  obtain ⟨e, others, -, he, hleft, hleave⟩ := hstands₇.leave
  have hchunk : c₇.left.draft.chunk = c₁.draft.chunk := by
    have hbare := congrArg Draft.chunk he
    rw [hleft]
    exact hbare
  have hstands₈ := hleave (hchunk ▸ hstands₁.room)
  rw [show _ :: _ = o :: outer from hstands₁.place] at hstands₈
  obtain ⟨hlast, hwritten⟩ := closure_stays f _ hstands₈ trivial run
  have hsame : c₇.left.written = c₁.written := congrArg (·.code.size) hchunk
  rw [Array.length_toList] at hwritten
  exact ⟨hlast, by omega⟩

/-- The declaration of a function. -/
theorem funDeclaration_spends (placed : Placed o outer isLocal own around)
    (name : t.kind = .identifier) (leftParen : left.kind = .leftParen)
    (parsed : Parameters ps parameters) (rightParen : right.kind = .rightParen)
    (leftBrace : brace.kind = .leftBrace)
    (new : isLocal = true → o.declares t.lexeme = false ∧ own.length < Draft.maxLocals)
    (bounded : Stmt.Bounded parameters body
      (((if isLocal then [t.lexeme] else []) ++ own) :: around))
    (outward : (Stmt.captured parameters body (((if isLocal then [t.lexeme] else []) ++ own) ::
      around)).filterMap outward? ⊆ wanted)
    (inside : BodySpends parameters body (((if isLocal then [t.lexeme] else []) ++ own) :: around)
      us m inner) :
    Spends (wanted :: W) (o :: outer) (o.declaring (if isLocal then [t.lexeme] else []) :: outer)
      (t :: left :: (ps ++ right :: brace :: us)) Anything (1 + if isLocal then 0 else 1)
      (2 + 2 * (Stmt.captured parameters body (((if isLocal then [t.lexeme] else []) ++ own) ::
        around)).length + if isLocal then 0 else 2) (funDeclaration inner s) := by
  have hdepth := placed.depth
  refine declaration_spends name placed new (fun hlocal i => ?_) fun hglobal i => ?_
  · subst hlocal
    have hdeep : 0 < o.depth := of_decide_eq_true hdepth
    have hplaced := placed.declaring [t.lexeme]
    have hmark : Spends (wanted :: W) (o.initializing t.lexeme :: outer)
        (o.declaring [t.lexeme] :: outer) [] Anything 0 0 markInitialized :=
      markInitialized_spends_local (o := o.initializing t.lexeme) hdeep
    have hdefine : Spends (wanted :: W) (o.declaring [t.lexeme] :: outer)
        (o.declaring [t.lexeme] :: outer) [] Anything 0 0 (defineVariable i) :=
      defineVariable_spends_local (o := o.declaring [t.lexeme]) hdeep i
    exact (hmark.idle fun _ => (functionBody_spends hplaced leftParen parsed rightParen leftBrace
      bounded outward inside).done fun _ => hdefine).mono (fun _ h => h)
        (Nat.le_of_eq (Nat.zero_add _)) (Nat.le_of_eq (Nat.zero_add _))
  · subst hglobal
    have hflat : ¬ 0 < o.depth := of_decide_eq_false hdepth
    exact ((markInitialized_stays_global hflat).idle fun _ => (functionBody_spends placed leftParen
      parsed rightParen leftBrace bounded outward inside).done fun _ =>
        defineVariable_stays_global hflat i).mono (fun _ h => h)
          (Nat.le_of_eq (Nat.zero_add _)) (Nat.le_of_eq (Nat.zero_add _))

end Compiler

end Lox
