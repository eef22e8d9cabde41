import Lox.Proofs.Reference.Matching

/-!
# Instructions of a piece and of the whole

Two machines in the middle of a passage that have read the same instruction do the same. What the
instruction looks at is above the slots of the scripts, an operand that refers to a constant finds
constants of the same kind, and a jump stays inside the passage.

## Main definitions

* `Reference.Scene` — the innermost call of a machine.
* `Reference.Faces` — two machines that have read the same instruction.

## Main results

* `execute_alongside` — instructions.
-/

namespace Lox

/-! ### Host functions -/

namespace HostFunction

variable {π : Matching} {args args' : List Datum} {d d' : Datum}

/-- Data that are the same have the same stand-ins. -/
theorem encode_like (like : d.Like π d') (all : List.Forall₂ (Datum.Like π) args args')
    (oneToOne : π.OneToOne) : encode args' d' = encode args d := by
  have hfind : args'.findIdx (Datum.same d') = args.findIdx (Datum.same d) := by
    induction all with
    | nil => rfl
    | cons hfirst _ ih => rw [List.findIdx_cons, List.findIdx_cons, like.same hfirst oneToOne, ih]
  cases like with
  | nil | bool | number => rfl
  | text s => exact congrArg (fun i => Value.object ⟨i⟩) hfind
  | callable h => exact congrArg (fun i => Value.object ⟨i⟩) hfind

/-- The data that a value stands for. -/
theorem decode_like (v : Value) (all : List.Forall₂ (Datum.Like π) args args') :
    (decode args v).Like π (decode args' v) := by
  cases v with
  | nil => exact .nil
  | bool b => exact .bool b
  | number x => exact .number x
  | object h =>
      have hrel := forall₂_getElem? all h.index
      simp only [decode, List.getD_eq_getElem?_getD]
      generalize args[h.index]? = o at hrel ⊢
      generalize args'[h.index]? = o' at hrel ⊢
      cases hrel with
      | none => exact .nil
      | some h => exact h

/-- A host function gives the same result for arguments that are the same. -/
theorem onData_like (run : HostFunction) (reading : Float)
    (all : List.Forall₂ (Datum.Like π) args args') (oneToOne : π.OneToOne) :
    (onData run reading args).Like π (onData run reading args') := by
  have hencoded : args'.map (encode args') = args.map (encode args) := by
    have hall : List.Forall₂ (· = ·) (args'.map (encode args')) (args.map (encode args)) := by
      rw [List.forall₂_map_left_iff, List.forall₂_map_right_iff]
      exact all.flip.imp fun _ _ like => encode_like like all oneToOne
    rwa [List.forall₂_eq_eq_eq] at hall
  unfold onData
  rw [hencoded]
  exact decode_like _ all

end HostFunction

namespace Reference

/-! ### Calls -/

variable {F : Passage} {π π' : Matching} {r r' s s' : Reference} {d d' : Datum} {i j n id id' : Nat}
  {a a' : Activation} {outer outer' calls calls' : List Activation} {k k' : Closure}

namespace Calls

theorem length_eq (paired : Calls F π calls calls') : calls'.length = calls.length := by
  induction paired with
  | script => rfl
  | inner _ _ _ _ _ ih => exact congrArg (· + 1) ih

theorem base (paired : Calls F π (a :: outer) (a' :: outer')) : a'.base = a.base := by
  cases paired with
  | script _ _ h h' => rw [h, h']
  | inner _ h => exact h

/-- Both innermost calls at other offsets, at the same distance from the ones before. -/
theorem goto (paired : Calls F π (a :: outer) (a' :: outer')) {ip ip' : Nat}
    (aligned : ip' + a.ip = ip + a'.ip) (inside : outer = [] → ip ≤ F.code.length) :
    Calls F π ({ a with ip } :: outer) ({ a' with ip := ip' } :: outer') := by
  cases paired with
  | script h h' hb hb' hip _ => exact .script h h' hb hb' (by simp only; omega) (inside rfl)
  | inner h hb hpos hip houter => exact .inner h hb hpos (by simp only; omega) houter

/-- The script is inside the passage. -/
theorem inside (paired : Calls F π [a] (a' :: outer')) : a.ip ≤ F.code.length := by
  cases paired with
  | script _ _ _ _ _ h => exact h
  | inner _ _ _ _ houter => cases houter

end Calls

/-- The innermost call of a machine and its closure. -/
structure Scene where
  call : Activation
  outer : List Activation
  closure : Closure

/-- A machine whose innermost call is given. -/
structure Shows (r : Reference) (x : Scene) : Prop where
  calls : r.calls = x.call :: x.outer
  closure : r.closure? x.call.callee = some x.closure

/-- Bytes that tell how variables are captured. -/
def Spells (x : Scene) (captures : List Capture) : Prop :=
  ∀ (i : Nat) b, (captures.flatMap Capture.bytes)[i]? = some b →
    x.closure.template.code[x.call.ip + i]? = some b

/-- Both machines in front of the same captured variables. None of them is the slot of a script. -/
structure Captures (F : Passage) (x x' : Scene) (captures : List Capture) : Prop where
  spells : Spells x captures
  spells' : Spells x' captures
  above : ∀ c ∈ captures, c.isLocal = true → 1 ≤ x.call.base + c.index.toNat
  inside : x.outer = [] → x.call.ip + 2 * captures.length ≤ F.code.length

/-- Two machines that have read the same instruction. -/
structure Faces (F : Passage) (π : Matching) (r r' : Reference) (x x' : Scene) (op : OpCode)
    (operand operand' : Nat) : Prop extends Beside F π r r' where
  shows : r.Shows x
  shows' : r'.Shows x'
  captured : List.Forall₂ π.location x.closure.captured.toList x'.closure.captured.toList
  depth : op.depth operand ≤ r.stack.size - x.call.base - 1
  same : op.isPooled = false → operand' = operand
  pooled : op.isPooled = true → ∀ c c', x.closure.constants[operand]? = some c →
    x'.closure.constants[operand']? = some c' → c.Kin c'
  slot : op.isSlot = true → 1 ≤ x.call.base + operand
  ahead : op.isForward = true → x.outer = [] → x.call.ip + operand ≤ F.code.length
  tells : op = .closure → ∃ captures, Captures F x x' captures ∧
    ∀ t inner, x.closure.constants[operand]? = some (.function t inner) →
      captures.length = t.upvalueCount

variable {x x' : Scene} {op : OpCode} {operand operand' : Nat} {α β : Type}

namespace Shows

theorem activation (shows : r.Shows x) : activation r = .ok x.call r := activation_of shows.calls

theorem current (shows : r.Shows x) : current r = .ok x.closure r := by
  rw [Reference.current, bind_of_ok shows.activation, bind_of_ok (get_apply r), shows.closure]
  rfl

theorem setIp (shows : r.Shows x) (ip : Nat) :
    setIp ip r = .ok () { r with calls := { x.call with ip } :: x.outer } := by
  rw [Reference.setIp, modify_apply, shows.calls]

end Shows

/-- The matching of a later state will do. -/
theorem Goes.after {a b : α} (goes : Goes F π' a s b s') (le : π.Le π') : Goes F π a s b s' := by
  obtain ⟨h, π'', hle, hbeside⟩ := goes
  exact ⟨h, π'', le.trans hle, hbeside⟩

theorem Goes.ok {a : α} (beside : Beside F π s s') : Goes F π a s a s' :=
  ⟨rfl, π, .refl π, beside⟩

/-- The closures of paired numbers. -/
theorem Common.closure (common : Common π r r') (paired : π.callable i j)
    (found : r.closure? i = some k) : ∃ k', r'.closure? j = some k' ∧
      Constant.Kin (.function k.template k.constants) (.function k'.template k'.constants) ∧
      List.Forall₂ π.location k.captured.toList k'.captured.toList := by
  obtain ⟨c, c', hc, hc', hlike⟩ := common.callables i j paired
  unfold closure? at found ⊢
  rw [hc] at found
  rw [hc']
  cases hlike with
  | closure hkin hcaptured =>
      cases found
      exact ⟨_, rfl, hkin, hcaptured⟩
  | native => cases found

/-- Functions that differ in lines only have the same arity, and the same number of captures. -/
theorem kin_template {t t' : Template} {ks ks' : List Constant}
    (kin : Constant.Kin (.function t ks) (.function t' ks')) :
    t' = { t with lines := t'.lines } := by
  cases kin with
  | function h => exact h

/-- Locations that are captured under the same index. -/
theorem captured_views (shows : r.Shows x) (shows' : r'.Shows x')
    (captured : List.Forall₂ π.location x.closure.captured.toList x'.closure.captured.toList)
    (index : Nat) :
    Views r r' π.location (Reference.captured index) (Reference.captured index) := by
  unfold Views Reference.captured
  rw [bind_of_ok shows.current, bind_of_ok shows'.current]
  refine demand_views fun ℓ ℓ' h h' => ?_
  have hrel := forall₂_getElem? captured index
  rw [Array.getElem?_toList, Array.getElem?_toList, h, h'] at hrel
  cases hrel with
  | some h => exact h

/-! ### Constants -/

namespace Faces

/-- Innermost calls with the same slots. -/
theorem activation (faces : Faces F π r r' x x' op operand operand') :
    Views r r' (fun a a' => a = x.call ∧ a'.base = a.base) activation activation := by
  have hcalls := faces.calls
  rw [faces.shows.calls, faces.shows'.calls] at hcalls
  unfold Views
  rw [faces.shows.activation, faces.shows'.activation]
  exact .ok ⟨rfl, rfl, rfl, hcalls.base⟩

/-- Constants of the same kind. -/
theorem constant (faces : Faces F π r r' x x' op operand operand') (pooled : op.isPooled = true) :
    Views r r' (fun c c' => c.Kin c' ∧ x.closure.constants[operand]? = some c)
      (constant operand) (constant operand') := by
  unfold Views Reference.constant
  rw [bind_of_ok faces.shows.current, bind_of_ok faces.shows'.current]
  exact demand_views fun c c' hc hc' => ⟨faces.pooled pooled c c' hc hc', hc⟩

/-- The same name. -/
theorem nameConstant (faces : Faces F π r r' x x' op operand operand')
    (pooled : op.isPooled = true) :
    Views r r' (fun name name' => name' = name) (nameConstant operand) (nameConstant operand') := by
  refine (faces.constant pooled).bind ?_
  rintro c c' ⟨hkin, -⟩
  cases hkin with
  | number => exact .first ⟨_, rfl⟩
  | text => exact views_pure rfl
  | function => exact .first ⟨_, rfl⟩

/-- The same literal. -/
theorem literal (faces : Faces F π r r' x x' op operand operand') (pooled : op.isPooled = true) :
    Views r r' (Datum.Like π) (literal operand) (literal operand') := by
  refine (faces.constant pooled).bind ?_
  rintro c c' ⟨hkin, -⟩
  cases hkin with
  | number x => exact views_pure (.number x)
  | text s => exact views_pure (.text s)
  | function => exact .first ⟨_, rfl⟩

end Faces

/-! ### Globals -/

/-- Setting a global. -/
theorem setGlobal_alongside (beside : Beside F π r r') (name : String) (like : d.Like π d') :
    Alongside (fun _ s _ s' => Beside F π s s' ∧ s.stack = r.stack) (setGlobal name d r)
      (setGlobal name d' r') := by
  refine .ok ⟨{ beside with globals := fun other => ?_ }, rfl⟩
  simp only
  split
  · exact .some like
  · exact beside.globals other

/-- Reading a global. -/
theorem readGlobal_views (beside : Beside F π r r') (name : String) :
    Views r r' (Datum.Like π) (readGlobal name) (readGlobal name) := by
  have hrel := beside.globals name
  unfold Views readGlobal
  rw [bind_of_ok (get_apply r), bind_of_ok (get_apply r')]
  generalize r.globals name = o at hrel ⊢
  generalize r'.globals name = o' at hrel ⊢
  cases hrel with
  | none => exact raise_alongside beside.toCommon _
  | some h => exact views_pure h

/-- Assigning a global that exists. -/
theorem assignGlobal_alongside (beside : Beside F π r r') (name : String)
    (deep : 2 ≤ r.stack.size) :
    Alongside (Goes F π) (assignGlobal name r) (assignGlobal name r') := by
  have hrel := beside.globals name
  have hsome : (r'.globals name).isSome = (r.globals name).isSome := by
    generalize r.globals name = o at hrel ⊢
    generalize r'.globals name = o' at hrel ⊢
    cases hrel <;> rfl
  unfold assignGlobal
  rw [bind_of_ok (get_apply r), bind_of_ok (get_apply r'), hsome]
  split
  · exact (peek_views beside deep).bind fun d d' hlike =>
      (setGlobal_alongside beside name hlike).imp fun _ _ _ _ h => .ok h.1
  · exact raise_alongside beside.toCommon _

/-! ### Operators -/

/-- Replacing the two values on top of the stack. -/
theorem replaceTwo_alongside (beside : Beside F π r r') (deep : 3 ≤ r.stack.size)
    (like : d.Like π d') :
    Alongside (Goes F π) ((do let _ ← pop; let _ ← pop; push d : Act Unit) r)
      ((do let _ ← pop; let _ ← pop; push d' : Act Unit) r') := by
  refine (pop_alongside beside (by omega)).bind ?_
  rintro _ s _ s' ⟨-, hs, hsize⟩
  refine (pop_alongside hs (by omega)).bind ?_
  rintro _ t _ t' ⟨-, ht, -⟩
  exact push_alongside ht like

/-- An operator on two numbers. -/
theorem binary_alongside (beside : Beside F π r r') (deep : 3 ≤ r.stack.size)
    {operation : Float → Float → Datum}
    (like : ∀ x y, (operation x y).Like π (operation x y)) :
    Alongside (Goes F π) (binary operation r) (binary operation r') := by
  unfold binary
  refine (peek_views beside deep).bind fun d d' hleft => ?_
  refine (peek_views beside (by omega)).bind fun e e' hright => ?_
  have hraise : Alongside (Goes F π) ((raise .operandsNotNumbers : Act Unit) r)
      ((raise .operandsNotNumbers : Act Unit) r') := raise_alongside beside.toCommon _
  cases hleft with
  | number x =>
      cases hright with
      | number y => exact replaceTwo_alongside beside deep (like x y)
      | nil | bool | text | callable => exact hraise
  | nil | bool | text | callable => exact hraise

/-- Adding numbers and joining texts. -/
theorem add_alongside (beside : Beside F π r r') (deep : 3 ≤ r.stack.size) :
    Alongside (Goes F π) (add r) (add r') := by
  unfold add
  refine (peek_views beside deep).bind fun d d' hleft => ?_
  refine (peek_views beside (by omega)).bind fun e e' hright => ?_
  have hraise : Alongside (Goes F π) ((raise .operandsNotAddable : Act Unit) r)
      ((raise .operandsNotAddable : Act Unit) r') := raise_alongside beside.toCommon _
  cases hleft with
  | number x =>
      cases hright with
      | number y => exact replaceTwo_alongside beside deep (.number _)
      | nil | bool | text | callable => exact hraise
  | text s =>
      cases hright with
      | text t => exact replaceTwo_alongside beside deep (.text _)
      | nil | bool | number | callable => exact hraise
  | nil | bool | callable => exact hraise

/-- Changing a sign. -/
theorem negate_alongside (beside : Beside F π r r') (deep : 2 ≤ r.stack.size) :
    Alongside (Goes F π) (negate r) (negate r') := by
  unfold negate
  refine (peek_views beside deep).bind fun d d' hlike => ?_
  have hraise : Alongside (Goes F π) ((raise .operandNotNumber : Act Unit) r)
      ((raise .operandNotNumber : Act Unit) r') := raise_alongside beside.toCommon _
  cases hlike with
  | number x =>
      refine (pop_alongside beside deep).bind ?_
      rintro _ s _ s' ⟨-, hs, -⟩
      exact push_alongside hs (.number _)
  | nil | bool | text | callable => exact hraise

/-! ### Calling -/

/-- Calling a closure. -/
theorem call_alongside (beside : Beside F π r r') (paired : π.callable id id') {count : Nat}
    (deep : count + 2 ≤ r.stack.size) :
    Alongside (Goes F π) (call id count r) (call id' count r') := by
  unfold call
  rw [bind_of_ok (get_apply r), bind_of_ok (get_apply r')]
  cases hk : r.closure? id with
  | none => exact .first ⟨_, rfl⟩
  | some k =>
      obtain ⟨k', hk', hkin, -⟩ := beside.closure paired hk
      have harity : k'.template.arity = k.template.arity := by rw [kin_template hkin]
      rw [hk', bind_of_ok (show demand (some k) r = .ok k r from rfl),
        bind_of_ok (show demand (some k') r' = .ok k' r' from rfl), harity,
        beside.calls.length_eq, beside.size]
      split
      · exact raise_alongside beside.toCommon _
      · split
        · exact raise_alongside beside.toCommon _
        · rw [if_neg (by omega), if_neg (by omega)]
          exact .ok (.ok { beside with
            calls := .inner paired rfl (by simp only; omega) rfl beside.calls })

/-- Calling a host function. -/
theorem callNative_alongside (beside : Beside F π r r') (native : Native) {count : Nat}
    (deep : count + 2 ≤ r.stack.size) :
    Alongside (Goes F π) (callNative native count r) (callNative native count r') := by
  have hresult : (native.run.onData (r.clock r.hostCalls)
    (r.dataFrom (r.stack.size - count))).Like π
      (native.run.onData (r'.clock r'.hostCalls) (r'.dataFrom (r.stack.size - count))) := by
    rw [beside.clock, beside.hostCalls]
    exact native.run.onData_like _ (beside.dataFrom (by omega)) beside.oneToOne
  have hcounted : Beside F π { r with hostCalls := r.hostCalls + 1 }
      { r' with hostCalls := r'.hostCalls + 1 } :=
    { beside with hostCalls := congrArg (· + 1) beside.hostCalls }
  unfold callNative
  rw [bind_of_ok (get_apply r), bind_of_ok (get_apply r'), bind_of_ok (modify_apply _ _),
    bind_of_ok (modify_apply _ _), beside.size, truncate, bind_of_ok (modify_apply _ _),
    bind_of_ok (modify_apply _ _)]
  exact push_alongside (hcounted.shrink (n := r.stack.size - count - 1) (by omega)) hresult

/-- Calling the datum under the arguments. -/
theorem callDatum_alongside (beside : Beside F π r r') {count : Nat}
    (deep : count + 2 ≤ r.stack.size) :
    Alongside (Goes F π) (callDatum count r) (callDatum count r') := by
  unfold callDatum
  refine (peek_views beside deep).bind fun d d' hlike => ?_
  have hraise : Alongside (Goes F π) ((raise .notCallable : Act Unit) r)
      ((raise .notCallable : Act Unit) r') := raise_alongside beside.toCommon _
  cases hlike with
  | nil | bool | number | text => exact hraise
  | @callable i j h =>
      obtain ⟨c, c', hc, hc', hlike⟩ := beside.callables i j h
      simp only
      rw [bind_of_ok (get_apply r), bind_of_ok (get_apply r'), hc, hc',
        bind_of_ok (show demand (some c) r = .ok c r from rfl),
        bind_of_ok (show demand (some c') r' = .ok c' r' from rfl)]
      cases hlike with
      | closure => exact call_alongside beside h deep
      | native n => exact callNative_alongside beside n deep

/-! ### Making closures -/

/-- Other calls in the place of the active ones. -/
theorem Beside.withCalls (beside : Beside F π r r') (paired : Calls F π calls calls') :
    Beside F π { r with calls } { r' with calls := calls' } := { beside with calls := paired }

/-- A closure captures a location, and its counterpart the one that is paired with it. -/
theorem capture_alongside (beside : Beside F π r r') (paired : π.callable id id')
    (other : id ≠ F.script) (other' : id' ≠ F.whole) {ℓ ℓ' : Nat} (locations : π.location ℓ ℓ') :
    Alongside (fun _ s _ s' => Beside F π s s' ∧ s.calls = r.calls ∧ s'.calls = r'.calls ∧
        (∀ i ≠ id, s.closure? i = r.closure? i) ∧ ∀ j ≠ id', s'.closure? j = r'.closure? j)
      (capture id ℓ r) (capture id' ℓ' r') := by
  unfold capture
  rw [bind_of_ok (get_apply r), bind_of_ok (get_apply r')]
  cases hk : r.closure? id with
  | none => exact .first ⟨_, rfl⟩
  | some k =>
      obtain ⟨k', hk', hkin, hcaptured⟩ := beside.closure paired hk
      rw [hk', bind_of_ok (show demand (some k) r = .ok k r from rfl),
        bind_of_ok (show demand (some k') r' = .ok k' r' from rfl)]
      have hkept : ∀ {r : Reference} {i id : Nat} (c : Callable), i ≠ id →
          closure? { r with callables := r.callables.setIfInBounds id c } i = r.closure? i :=
        fun {r i id} c hne => by
          simp only [closure?]
          rw [Array.getElem?_setIfInBounds_ne (Ne.symm hne)]
      refine .ok ⟨{ beside with
        callables := fun i j h => ?_, script := (hkept _ (Ne.symm other)).trans beside.script
        whole := (hkept _ (Ne.symm other')).trans beside.whole }, rfl, rfl,
        fun i hi => hkept _ hi, fun j hj => hkept _ hj⟩
      obtain ⟨c, c', hc, hc', hlike⟩ := beside.callables i j h
      have hlt := (Array.getElem?_eq_some_iff.mp hc).1
      have hlt' := (Array.getElem?_eq_some_iff.mp hc').1
      by_cases hself : i = id
      · subst hself
        obtain rfl := beside.oneToOne.callable_right _ _ _ h paired
        refine ⟨_, _, Array.getElem?_setIfInBounds_self_of_lt hlt,
          Array.getElem?_setIfInBounds_self_of_lt hlt', .closure hkin ?_⟩
        simp only [Array.toList_push]
        exact List.rel_append hcaptured (.cons locations .nil)
      · have hne : j ≠ id' := by
          rintro rfl
          exact hself (beside.oneToOne.callable_left _ _ _ h paired)
        exact ⟨c, c', by rwa [Array.getElem?_setIfInBounds_ne (Ne.symm hself)],
          by rwa [Array.getElem?_setIfInBounds_ne (Ne.symm hne)], hlike⟩

/-- The scene some bytes further on. -/
def Scene.after (x : Scene) (count : Nat) : Scene :=
  { x with call := { x.call with ip := x.call.ip + count } }

/-- Reading a byte that is there. -/
theorem Shows.readByte (shows : r.Shows x) {b : UInt8}
    (found : x.closure.template.code[x.call.ip]? = some b) :
    ∃ s, Reference.readByte r = .ok b s ∧ s.Shows (x.after 1) ∧
      s = { r with calls := (x.after 1).call :: x.outer } :=
  ⟨_, readByte_of shows.calls shows.closure found, ⟨rfl, shows.closure⟩, rfl⟩

/-- Reading how the next variable is captured. -/
theorem Shows.readCapture (shows : r.Shows x) {c : Capture} {captures : List Capture}
    (spells : Spells x (c :: captures)) :
    ∃ s t, Reference.readByte r = .ok (if c.isLocal then 1 else 0) s ∧
      Reference.readByte s = .ok c.index t ∧ t.Shows (x.after 2) ∧
        t = { r with calls := (x.after 2).call :: x.outer } := by
  obtain ⟨s, hfirst, hs, rfl⟩ := shows.readByte (spells 0 _ rfl)
  obtain ⟨t, hsecond, ht, rfl⟩ := hs.readByte (spells 1 _ rfl)
  exact ⟨_, _, hfirst, hsecond, ht, rfl⟩

/-- The captured variables behind the first one. -/
theorem Captures.tail {c : Capture} {captures : List Capture}
    (known : Captures F x x' (c :: captures)) : Captures F (x.after 2) (x'.after 2) captures := by
  have hrest : ∀ {y : Scene}, Spells y (c :: captures) → Spells (y.after 2) captures :=
    fun {y} spells i b hb => by
      refine (congrArg (y.closure.template.code[·]?) (Nat.add_assoc _ 2 i)).trans
        (spells (2 + i) b ?_)
      rw [List.flatMap_cons, List.getElem?_append_right (by simp [Capture.bytes])]
      simpa [Capture.bytes] using hb
  refine ⟨hrest known.spells, hrest known.spells', fun c hc =>
    known.above c (List.mem_cons_of_mem _ hc),
    fun houter => ?_⟩
  have := known.inside houter
  simp only [List.length_cons] at this
  simp only [Scene.after]
  omega

/-- Capturing the next variable that the code tells of. -/
theorem captureNext_alongside {c : Capture} {captures : List Capture} (beside : Beside F π r r')
    (shows : r.Shows x) (shows' : r'.Shows x')
    (captured : List.Forall₂ π.location x.closure.captured.toList x'.closure.captured.toList)
    (known : Captures F x x' (c :: captures)) (paired : π.callable id id')
    (other : id ≠ F.script) (other' : id' ≠ F.whole) (inner : id ≠ x.call.callee)
    (inner' : id' ≠ x'.call.callee) :
    Alongside (fun _ s _ s' => Beside F π s s' ∧ s.Shows (x.after 2) ∧ s'.Shows (x'.after 2))
      (captureNext id r) (captureNext id' r') := by
  obtain ⟨s, t, hfirst, hsecond, ht, rfl⟩ := shows.readCapture known.spells
  obtain ⟨s', t', hfirst', hsecond', ht', rfl⟩ := shows'.readCapture known.spells'
  have hcalls := beside.calls
  rw [shows.calls, shows'.calls] at hcalls
  have hmoved : Calls F π ((x.after 2).call :: x.outer) ((x'.after 2).call :: x'.outer) :=
    hcalls.goto (by omega) fun houter => by
      have := known.inside houter
      rw [List.length_cons] at this
      omega
  have hbeside := beside.withCalls hmoved
  have hcapture : ∀ {ℓ ℓ' : Nat}, π.location ℓ ℓ' →
      Alongside (fun _ s _ s' => Beside F π s s' ∧ s.Shows (x.after 2) ∧ s'.Shows (x'.after 2))
        (capture id ℓ { r with calls := (x.after 2).call :: x.outer })
        (capture id' ℓ' { r' with calls := (x'.after 2).call :: x'.outer }) :=
          fun {ℓ ℓ'} hlocation => by
    refine (capture_alongside hbeside paired other other' hlocation).imp ?_
    rintro _ u _ u' ⟨hu, hsame, hsame', hkept, hkept'⟩
    exact ⟨hu, ⟨hsame.trans ht.calls, (hkept _ (Ne.symm inner)).trans ht.closure⟩,
      ⟨hsame'.trans ht'.calls, (hkept' _ (Ne.symm inner')).trans ht'.closure⟩⟩
  rw [captureNext, captureNext, bind_of_ok hfirst, bind_of_ok hfirst', bind_of_ok hsecond,
    bind_of_ok hsecond']
  dsimp only
  cases hkind : c.isLocal with
  | true =>
      rw [if_pos rfl, if_pos (by decide), if_pos (by decide), bind_of_ok ht.activation,
        bind_of_ok ht'.activation, show (x'.after 2).call.base =
          (x.after 2).call.base from hmoved.base]
      exact (location_views hbeside (known.above c (List.mem_cons_self ..) hkind)).bind
        fun ℓ ℓ' hlocation => hcapture hlocation
  | false =>
      rw [if_neg Bool.false_ne_true, if_neg (by decide), if_neg (by decide)]
      exact (captured_views ht ht' captured _).bind fun ℓ ℓ' hlocation => hcapture hlocation

/-- Capturing all variables that the code tells of. -/
theorem captureAll_alongside (captures : List Capture) (beside : Beside F π r r')
    (shows : r.Shows x) (shows' : r'.Shows x')
    (captured : List.Forall₂ π.location x.closure.captured.toList x'.closure.captured.toList)
    (known : Captures F x x' captures) (paired : π.callable id id')
    (other : id ≠ F.script) (other' : id' ≠ F.whole) (inner : id ≠ x.call.callee)
    (inner' : id' ≠ x'.call.callee) :
    Alongside (Goes F π) (captureAll id captures.length r) (captureAll id' captures.length r') := by
  induction captures generalizing r r' x x' with
  | nil => exact .ok (.ok beside)
  | cons c captures ih =>
      refine (captureNext_alongside beside shows shows' captured known paired other other' inner
        inner').bind ?_
      rintro _ s _ s' ⟨hs, hshows, hshows'⟩
      exact ih hs hshows hshows' captured known.tail inner inner'

/-- Making a closure of a constant. -/
theorem makeClosure_alongside (faces : Faces F π r r' x x' .closure operand operand') :
    Alongside (Goes F π) (makeClosure operand r) (makeClosure operand' r') := by
  obtain ⟨captures, hknown, hcount⟩ := faces.tells rfl
  have hthere : ∀ {r : Reference} {id : Nat} {k : Closure}, r.closure? id = some k →
      r.callables.size ≠ id := fun {r id k} hk heq => by
    unfold closure? at hk
    rw [← heq, Array.getElem?_eq_none (Nat.le_refl _)] at hk
    cases hk
  unfold makeClosure
  refine (faces.constant rfl).bind ?_
  rintro c c' ⟨hkin, hfound⟩
  cases hkin with
  | number | text => exact .first ⟨_, rfl⟩
  | @function t t' ks ks' htemplate hlength hall =>
      have hkin : Constant.Kin (.function t ks) (.function t' ks') :=
        .function htemplate hlength hall
      have hupvalues : t'.upvalueCount = t.upvalueCount := by rw [kin_template hkin]
      simp only [hupvalues, ← hcount _ _ hfound]
      let c : Callable := .closure { template := t, constants := ks }
      let c' : Callable := .closure { template := t', constants := ks' }
      let π' := π.addCallable r.callables.size r'.callables.size
      have hle : π.Le π' := π.le_addCallable _ _
      have hmade : Beside F π' { r with callables := r.callables.push c }
          { r' with callables := r'.callables.push c' } :=
        { faces.toCommon.addCallable (show Callable.Like π c c' from .closure hkin .nil) with
          fits := faces.fits, script := closure?_push c faces.script
          whole := closure?_push c' faces.whole
          bottom := faces.bottom, bottom' := faces.bottom'
          stack := faces.stack.imp hle.location, calls := faces.calls.mono hle, room := faces.room }
      have hnew : π'.callable r.callables.size r'.callables.size := .inr ⟨rfl, rfl⟩
      change Alongside (Goes F π) ((push (.callable r.callables.size) >>=
          fun _ => captureAll r.callables.size captures.length)
            { r with callables := r.callables.push c })
        ((push (.callable r'.callables.size) >>=
          fun _ => captureAll r'.callables.size captures.length)
            { r' with callables := r'.callables.push c' })
      refine (push_steadily hmade (.callable hnew)).bind ?_
      rintro _ s _ s' ⟨⟨-, π'', hle', hs⟩, hcalls, hcalls', hcallables, hcallables'⟩
      have hshows : s.Shows x := ⟨hcalls.trans faces.shows.calls, by
        rw [closure?, hcallables]
        exact closure?_push c faces.shows.closure⟩
      have hshows' : s'.Shows x' := ⟨hcalls'.trans faces.shows'.calls, by
        rw [closure?, hcallables']
        exact closure?_push c' faces.shows'.closure⟩
      exact (captureAll_alongside captures hs hshows hshows'
        (faces.captured.imp (hle.trans hle').location) hknown (hle'.callable _ _ hnew)
        (hthere faces.script) (hthere faces.whole) (hthere faces.shows.closure)
          (hthere faces.shows'.closure)).imp
          fun _ _ _ _ goes => goes.after (hle.trans hle')

/-! ### Control -/

/-- Moving both innermost calls by the same distance. -/
theorem setIp_alongside (beside : Beside F π r r') (shows : r.Shows x) (shows' : r'.Shows x')
    {ip ip' : Nat} (aligned : ip' + x.call.ip = ip + x'.call.ip)
    (inside : x.outer = [] → ip ≤ F.code.length) :
    Alongside (Goes F π) (setIp ip r) (setIp ip' r') := by
  have hcalls := beside.calls
  rw [shows.calls, shows'.calls] at hcalls
  rw [shows.setIp, shows'.setIp]
  exact .ok (.ok (beside.withCalls (hcalls.goto aligned inside)))

/-- A jump ahead. -/
theorem Faces.jump (faces : Faces F π r r' x x' op operand operand')
    (forward : op.isForward = true) :
    Alongside (Goes F π) (jump operand r) (jump operand r') := by
  unfold Reference.jump
  rw [bind_of_ok faces.shows.activation, bind_of_ok faces.shows'.activation]
  exact setIp_alongside faces.toBeside faces.shows faces.shows' (by omega) (faces.ahead forward)

/-- A jump back. -/
theorem jumpBack_alongside (beside : Beside F π r r') (shows : r.Shows x) (shows' : r'.Shows x')
    (distance : Nat) : Alongside (Goes F π) (jumpBack distance r) (jumpBack distance r') := by
  have hcalls := beside.calls
  rw [shows.calls, shows'.calls] at hcalls
  have hle : x.outer = [] → x.call.ip ≤ F.code.length := fun houter => (houter ▸ hcalls).inside
  unfold jumpBack
  rw [bind_of_ok shows.activation, bind_of_ok shows'.activation]
  split
  · split
    · refine setIp_alongside beside shows shows' (by omega) fun houter => ?_
      have := hle houter
      omega
    · exact .second ⟨_, rfl⟩
  · exact .first ⟨_, rfl⟩

/-- Data that are the same have the same text. -/
theorem Common.display (common : Common π r r') (like : d.Like π d') :
    r'.display d' = r.display d := by
  cases like with
  | nil | bool | number | text => rfl
  | @callable i j h =>
      obtain ⟨c, c', hc, hc', hlike⟩ := common.callables i j h
      simp only [Reference.display, hc, hc']
      cases hlike with
      | @closure k k' hkin _ =>
          have hname : k'.template.name = k.template.name := by rw [kin_template hkin]
          simp only [displayTemplate, hname]
      | native => rfl

/-- Printing. -/
theorem print_alongside (beside : Beside F π r r') (deep : 2 ≤ r.stack.size) :
    Alongside (Goes F π) (print r) (print r') := by
  unfold print
  refine (pop_alongside beside deep).bind ?_
  rintro d s d' s' ⟨hlike, hs, -⟩
  rw [bind_of_ok (get_apply s), bind_of_ok (get_apply s'), hs.display hlike]
  refine Views.bind (R := fun text text' => text' = text) (demand_views fun a b ha hb => ?_) ?_
  · exact Option.some.inj (hb.symm.trans ha)
  · rintro _ text rfl
    exact .ok (.ok { hs with printout := congrArg (Printout.writeLine · text) hs.printout })

/-! ### Instructions -/

/-- The values that an instruction uses lie above the slot of the function. -/
theorem Faces.deep (faces : Faces F π r r' x x' op operand operand') {count : Nat}
    (uses : op.depth operand = count + 1) : count + 2 ≤ r.stack.size := by
  have := faces.depth
  omega

theorem getLocal_alongside (faces : Faces F π r r' x x' .getLocal operand operand') :
    Alongside (Goes F π) (execute .getLocal operand r) (execute .getLocal operand' r') := by
  obtain rfl := faces.same rfl
  refine faces.activation.bind fun a a' hsame => ?_
  obtain ⟨rfl, hbase⟩ := hsame
  rw [hbase]
  exact (location_views faces.toBeside (faces.slot rfl)).bind fun ℓ ℓ' hlocation =>
    (read_views faces.toBeside hlocation).bind fun d d' hlike => push_alongside faces.toBeside hlike

theorem setLocal_alongside (faces : Faces F π r r' x x' .setLocal operand operand') :
    Alongside (Goes F π) (execute .setLocal operand r) (execute .setLocal operand' r') := by
  obtain rfl := faces.same rfl
  refine faces.activation.bind fun a a' hsame => ?_
  obtain ⟨rfl, hbase⟩ := hsame
  rw [hbase]
  refine (peek_views faces.toBeside (faces.deep rfl)).bind fun d d' hlike => ?_
  exact (location_views faces.toBeside (faces.slot rfl)).bind fun ℓ ℓ' hlocation =>
    write_alongside faces.toBeside hlocation hlike

theorem getUpvalue_alongside (faces : Faces F π r r' x x' .getUpvalue operand operand') :
    Alongside (Goes F π) (execute .getUpvalue operand r) (execute .getUpvalue operand' r') := by
  obtain rfl := faces.same rfl
  exact (captured_views faces.shows faces.shows' faces.captured _).bind fun ℓ ℓ' hlocation =>
    (read_views faces.toBeside hlocation).bind fun d d' hlike => push_alongside faces.toBeside hlike

theorem setUpvalue_alongside (faces : Faces F π r r' x x' .setUpvalue operand operand') :
    Alongside (Goes F π) (execute .setUpvalue operand r) (execute .setUpvalue operand' r') := by
  obtain rfl := faces.same rfl
  exact (captured_views faces.shows faces.shows' faces.captured _).bind fun ℓ ℓ' hlocation =>
    (peek_views faces.toBeside (faces.deep rfl)).bind fun d d' hlike =>
      write_alongside faces.toBeside hlocation hlike

theorem defineGlobal_alongside (faces : Faces F π r r' x x' .defineGlobal operand operand') :
    Alongside (Goes F π) (execute .defineGlobal operand r) (execute .defineGlobal operand' r') := by
  refine (faces.nameConstant rfl).bind ?_
  rintro _ name rfl
  refine (peek_views faces.toBeside (faces.deep rfl)).bind fun d d' hlike => ?_
  refine (setGlobal_alongside faces.toBeside name hlike).bind ?_
  rintro _ s _ s' ⟨hs, hstack⟩
  refine (pop_alongside hs (by rw [hstack]; exact faces.deep rfl)).bind ?_
  rintro _ t _ t' ⟨-, ht, -⟩
  exact .ok (.ok ht)

theorem equal_alongside (beside : Beside F π r r') (deep : 3 ≤ r.stack.size) :
    Alongside (Goes F π) (execute .equal operand r) (execute .equal operand' r') := by
  refine (pop_alongside beside (by omega)).bind ?_
  rintro d s d' s' ⟨hright, hs, hsize⟩
  refine (pop_alongside hs (by omega)).bind ?_
  rintro e t e' t' ⟨hleft, ht, -⟩
  rw [hleft.same hright beside.oneToOne]
  exact push_alongside ht (.bool _)

theorem not_alongside (beside : Beside F π r r') (deep : 2 ≤ r.stack.size) :
    Alongside (Goes F π) (execute .not operand r) (execute .not operand' r') := by
  refine (pop_alongside beside deep).bind ?_
  rintro d s d' s' ⟨hlike, hs, -⟩
  rw [hlike.isFalsey]
  exact push_alongside hs (.bool _)

theorem jumpIfFalse_alongside (faces : Faces F π r r' x x' .jumpIfFalse operand operand') :
    Alongside (Goes F π) (execute .jumpIfFalse operand r) (execute .jumpIfFalse operand' r') := by
  obtain rfl := faces.same rfl
  refine (peek_views faces.toBeside (faces.deep rfl)).bind fun d d' hlike => ?_
  rw [hlike.isFalsey]
  split
  · exact faces.jump rfl
  · exact .ok (.ok faces.toBeside)

/-- Two machines that have read the same instruction do the same. -/
theorem execute_alongside (faces : Faces F π r r' x x' op operand operand') :
    Alongside (Goes F π) (execute op operand r) (execute op operand' r') := by
  have beside := faces.toBeside
  cases op with
  | constant => exact (faces.literal rfl).bind fun d d' hlike => push_alongside beside hlike
  | pushNil => exact push_alongside beside .nil
  | pushTrue | pushFalse => exact push_alongside beside (.bool _)
  | pop | closeUpvalue =>
      refine (pop_alongside beside (faces.deep rfl)).bind ?_
      rintro _ s _ s' ⟨-, hs, -⟩
      exact .ok (.ok hs)
  | getLocal => exact getLocal_alongside faces
  | setLocal => exact setLocal_alongside faces
  | getGlobal =>
      refine (faces.nameConstant rfl).bind ?_
      rintro _ name rfl
      exact (readGlobal_views beside name).bind fun d d' hlike => push_alongside beside hlike
  | defineGlobal => exact defineGlobal_alongside faces
  | setGlobal =>
      refine (faces.nameConstant rfl).bind ?_
      rintro _ name rfl
      exact assignGlobal_alongside beside name (faces.deep rfl)
  | getUpvalue => exact getUpvalue_alongside faces
  | setUpvalue => exact setUpvalue_alongside faces
  | equal => exact equal_alongside beside (faces.deep rfl)
  | greater | less => exact binary_alongside beside (faces.deep rfl) fun x y => .bool _
  | subtract | multiply | divide =>
      exact binary_alongside beside (faces.deep rfl) fun x y => .number _
  | add => exact add_alongside beside (faces.deep rfl)
  | not => exact not_alongside beside (faces.deep rfl)
  | negate => exact negate_alongside beside (faces.deep rfl)
  | print => exact print_alongside beside (faces.deep rfl)
  | jump =>
      obtain rfl := faces.same rfl
      exact faces.jump rfl
  | jumpIfFalse => exact jumpIfFalse_alongside faces
  | loop =>
      obtain rfl := faces.same rfl
      exact jumpBack_alongside beside faces.shows faces.shows' _
  | call =>
      obtain rfl := faces.same rfl
      exact callDatum_alongside beside (faces.deep rfl)
  | closure => exact makeClosure_alongside faces
  | giveBack => exact .ok (.ok beside)

end Reference

end Lox
