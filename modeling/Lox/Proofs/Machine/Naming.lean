import Lox.Proofs.Machine.Abandoning
import Lox.Proofs.Machine.Aloof
import Lox.Proofs.Machine.Conservation
import Lox.Proofs.Machine.Progress
import Lox.Proofs.Session.History

/-!
# Globals and their names

The table of globals has handles for keys. A key is the handle of the interned string of a name,
and it is a root, so a collection neither frees the string nor gives its slot away. Hence what the
host finds under a name changes only when an instruction stores a value under that name.

## Main definitions

* `latest?` — the value that a log of stores has last for a name.
* `Machine.access?`, `Machine.stores?` — what the next instruction does to a global.
* `Machine.writes` — the log of a run.
* `Machine.Named` — the keys of the globals are strings.

## Main results

* `step_stores`, `run_writes` — what a step and a run do to the globals.
* `undefined_iff` — when an instruction raises the error for an undefined variable.
-/

namespace Lox

/-! ### Logs -/

/-- The value that was stored last under a name, in a log of names and values. -/
def latest? (log : List (String × Value)) (name : String) : Option Value :=
  log.reverse.lookup name

@[simp] theorem latest?_nil (name : String) : latest? [] name = none := rfl

/-- What is stored later counts. -/
theorem latest?_append (log more : List (String × Value)) (name : String) :
    latest? (log ++ more) name = (latest? more name).or (latest? log name) := by
  rw [latest?, List.reverse_append, List.lookup_append]
  rfl

/-- One entry of a log. -/
theorem latest?_singleton (stored : String) (v : Value) (name : String) :
    latest? [(stored, v)] name = if name = stored then some v else none := by
  by_cases h : name = stored
  · simp [latest?, h]
  · simp [latest?, List.lookup_cons, h, beq_eq_false_iff_ne.mpr h]

namespace Machine

open Session (global? global?_eq_some_iff)

variable {m m' mid : Machine} {h : Handle} {v : Value} {op : OpCode} {operand : Nat}
  {text : String}

/-! ### What instructions do to globals -/

/-- The access to a global that the next instruction is going to make, with the name of the
global. -/
def access? (m : Machine) : Option (OpCode × String) :=
  match fetch m with
  | .error _ _ => none
  | .ok (op, operand) mid =>
    if op = .getGlobal ∨ op = .defineGlobal ∨ op = .setGlobal then
      match nameConstant operand mid with
      | .error _ _ => none
      | .ok h last => (last.heap.string h).toOption.map fun text => (op, text)
    else none

/-- What the next instruction stores under the name of a global, if it does: the value on top of
the stack. An instruction that fails stores nothing. -/
def stores? (m : Machine) : Option (String × Value) :=
  match m.access?, step m with
  | some (op, text), .ok _ _ => if op = .getGlobal then none else m.stack.back?.map fun v =>
    (text, v)
  | _, _ => none

/-- All that a run of at most a count of instructions stores, in order. -/
def writes : (budget : Nat) → Machine → List (String × Value)
  | 0, _ => []
  | budget + 1, m => m.stores?.toList ++
    match step m with
    | .ok .running m' => writes budget m'
    | _ => []

/-! ### Names -/

/-- The keys of the globals are live strings. -/
def Named (m : Machine) : Prop :=
  ∀ h v, m.globals[h]? = some v → ∃ text, m.heap.object? h = some (.string text)

/-- The globals are still there, and so are their names. -/
def NamesStay (m m' : Machine) : Prop :=
  m.heap.Orderly → m'.heap.Orderly ∧ m'.globals = m.globals ∧
    ∀ h v text, m.globals[h]? = some v → m.heap.object? h = some (.string text) →
      m'.heap.object? h = some (.string text)

/-- The name of a global is a root. -/
theorem name_mem_rooted (found : m.globals[h]? = some v) : h ∈ m.rooted :=
  mem_rooted.mpr (.inr (.inr (.inr ⟨h, v, found, .inl rfl⟩)))

/-- A heap in order that keeps what the machine does keeps the names. -/
theorem NamesStay.of_keeps {heap : Heap} (orderly : m.heap.Orderly → heap.Orderly)
    (keeps : m.heap.Orderly → m.heap.Keeps m.rooted heap) : NamesStay m { m with heap } :=
  fun horderly => ⟨orderly horderly, rfl, fun _ _ _ hfound htext =>
    keeps horderly _ _ (.root (name_mem_rooted hfound)) htext⟩

/-- Names last. -/
theorem lasting_namesStay : Lasting NamesStay where
  trans first second orderly := by
    obtain ⟨hmid, hglobals, hnames⟩ := first orderly
    obtain ⟨hlast, hglobals', hnames'⟩ := second hmid
    exact ⟨hlast, hglobals'.trans hglobals, fun h v text hfound htext =>
      hnames' h v text (hglobals ▸ hfound) (hnames h v text hfound htext)⟩
  elsewhere heap globals orderly :=
    ⟨heap ▸ orderly, globals, fun _ _ _ _ htext => heap ▸ htext⟩
  intern run := .of_keeps (fun orderly => (Heap.internedAs_of_ok orderly run).orderly orderly)
    fun orderly => (Heap.internedAs_of_ok orderly run).keeps
  allocate _ run := .of_keeps (fun orderly => (Heap.allocated_of_ok orderly run).orderly)
    fun orderly => (Heap.allocated_of_ok orderly run).keeps
  replace hold mutable kind orderly := by
    refine ⟨orderly.replace ⟨_, hold⟩ _, rfl, fun h v text _ htext => ?_⟩
    rw [Heap.object?_replace ⟨_, hold⟩, if_neg, htext]
    rintro rfl
    obtain rfl := Option.some.inj (hold.symm.trans htext)
    rcases mutable with hkind | hkind <;> cases hkind

/-- Where names stay, the globals do. -/
theorem NamesStay.global? (stay : NamesStay m m') (named : m.Named) (orderly : m.heap.Orderly)
    (interned : m.heap.Interned) (interned' : m'.heap.Interned) :
    m'.Named ∧ ∀ name, Session.global? m' name = Session.global? m name := by
  obtain ⟨-, hglobals, hnames⟩ := stay orderly
  refine ⟨fun h v hfound => ?_, fun name => Option.ext fun v => ?_⟩
  · rw [hglobals] at hfound
    obtain ⟨text, htext⟩ := named h v hfound
    exact ⟨text, hnames h v text hfound htext⟩
  · rw [global?_eq_some_iff interned, global?_eq_some_iff interned', hglobals]
    refine exists_congr fun h => and_congr_left fun hfound =>
      ⟨fun hname => ?_, hnames h v name hfound⟩
    obtain ⟨text, htext⟩ := named h v hfound
    obtain rfl : name = text := by
      simpa using hname.symm.trans (hnames h v text hfound htext)
    exact htext

/-- A value that is stored under a name is found there, and nothing else changes. -/
theorem global?_insert (interned : m.heap.Interned)
    (htext : m.heap.object? h = some (.string text)) (v : Value) (name : String) :
    Session.global? { m with globals := m.globals.insert h v } name =
      if name = text then some v else Session.global? m name := by
  refine Option.ext fun w => ?_
  rw [global?_eq_some_iff (m := { m with globals := m.globals.insert h v }) interned]
  simp only [Std.TreeMap.getElem?_insert]
  split
  · rename_i heq
    subst heq
    constructor
    · rintro ⟨g, hg, hfound⟩
      obtain rfl := interned.distinct g h name hg htext
      rwa [if_pos Std.ReflCmp.compare_self] at hfound
    · exact fun hw => ⟨h, htext, by rwa [if_pos Std.ReflCmp.compare_self]⟩
  · rename_i hne
    rw [global?_eq_some_iff interned]
    refine exists_congr fun g => and_congr_right fun hg => ?_
    rw [if_neg]
    intro heq
    obtain rfl := Std.LawfulEqCmp.eq_of_compare heq
    exact hne (by simpa using hg.symm.trans htext)

/-! ### Steps -/

/-- A look that answers has changed nothing. -/
theorem Looks.eq_of_ok {α : Type} {a : α} {x : Action α} (looks : Looks m (x m))
    (run : x m = .ok a m') : m' = m := by
  rw [run] at looks
  generalize hresult : (EStateM.Result.ok a m' : EStateM.Result Interruption Machine α) = result
    at looks
  cases looks with
  | ok =>
      cases hresult
      rfl
  | @raised cause =>
      obtain ⟨i, last, hraise⟩ := raise_eq cause m
      rw [hraise] at hresult
      cases hresult
  | fault => cases hresult

/-- A constant that names a global is a string, and nothing has changed when it is found. -/
theorem nameConstant_eq_ok (run : nameConstant operand mid = .ok h m') :
    m' = mid ∧ ∃ text, mid.heap.object? h = some (.string text) := by
  refine ⟨(nameConstant_looks operand).eq_of_ok run, ?_⟩
  obtain ⟨v, n, hconstant, hrest⟩ := bind_eq_ok_iff.mp run
  obtain rfl := (constant_looks operand).eq_of_ok hconstant
  have hraise : ∀ {cause : Cause} {a : Handle} {m m' : Machine},
      (raise cause : Action Handle) m ≠ .ok a m' := by
    intro cause a m m' hrun
    obtain ⟨i, last, hraise⟩ := raise_eq cause m
    rw [hraise] at hrun
    cases hrun
  cases v with
  | object g =>
      obtain ⟨isString, n', hask, hrest⟩ := bind_eq_ok_iff.mp hrest
      rcases ask_cases (fun m => m.heap.isString (.object g)) n with ⟨b, hb, hok⟩ | ⟨f, herror⟩
      swap
      · cases hask.symm.trans herror
      cases hask.symm.trans hok
      cases isString with
      | false =>
          obtain ⟨shown, n', -, hrest⟩ := bind_eq_ok_iff.mp hrest
          exact absurd hrest hraise
      | true =>
          cases hrest
          cases hobject : m'.heap.object h with
          | error f => simp [Heap.isString, Heap.kind, hobject, bind, Except.bind] at hb
          | ok o =>
              cases o with
              | string text => exact ⟨text, Heap.object_eq_ok_iff.mp hobject⟩
              | function | native | closure | cell =>
                  simp [Heap.isString, Heap.kind, hobject, bind, Except.bind, Object.kind,
                    pure, Except.pure] at hb
  | nil | bool | number =>
      obtain ⟨shown, n', -, hrest⟩ := bind_eq_ok_iff.mp hrest
      exact absurd hrest hraise

/-- An access to a global is read from the code, and its name from the constants. -/
theorem access?_eq_some_iff : m.access? = some (op, text) ↔
    (op = .getGlobal ∨ op = .defineGlobal ∨ op = .setGlobal) ∧ ∃ operand mid h,
      fetch m = .ok (op, operand) mid ∧ nameConstant operand mid = .ok h mid ∧
        mid.heap.object? h = some (.string text) := by
  unfold access?
  cases hfetch : fetch m with
  | error i mid => simp
  | ok instruction mid =>
      obtain ⟨op', operand⟩ := instruction
      simp only
      split
      · rename_i hop
        cases hname : nameConstant operand mid with
        | error i last => simp [hname]
        | ok h last =>
            obtain ⟨rfl, text', htext⟩ := nameConstant_eq_ok hname
            simp only [Heap.string_eq_ok_iff.mpr htext, Except.toOption]
            constructor
            · intro heq
              cases heq
              exact ⟨hop, operand, last, h, rfl, hname, htext⟩
            · rintro ⟨-, operand', mid', h', hrun, hname', htext'⟩
              cases hrun
              cases hname.symm.trans hname'
              cases htext.symm.trans htext'
              rfl
      · rename_i hop
        constructor
        · intro heq
          cases heq
        · rintro ⟨hop', operand', mid', h', hrun, -⟩
          cases hrun
          exact absurd hop' hop

/-- Without an access that sets a global, nothing is stored. -/
theorem stores?_eq_none (none : ∀ op text, m.access? = some (op, text) → op = .getGlobal) :
    m.stores? = Option.none := by
  unfold stores?
  split
  · rename_i op text _ _ haccess _
    rw [if_pos (none op text haccess)]
  · rfl

/-- What is on top of the stack. -/
theorem peek_eq_ok (run : peek 0 mid = .ok v m') : m' = mid ∧ mid.stack.back? = some v := by
  refine ⟨(peek_looks 0).eq_of_ok run, ?_⟩
  rw [peek, bind_of_ok (get_apply mid)] at run
  split at run
  · rw [Array.back?]
    cases hv : mid.stack[mid.stack.size - 1 - 0]? with
    | none =>
        rw [hv] at run
        cases run
    | some w =>
        rw [hv] at run
        cases run
        rfl
  · cases run

/-- A step that fails stores nothing. -/
theorem stores?_of_error {i : Interruption} (run : step m = .error i m') : m.stores? = none := by
  unfold stores?
  rw [run]
  cases m.access? <;> rfl

/-- A step that sets a global stores what is on top of the stack. -/
theorem stores?_of_ok {status : Status} (access : m.access? = some (op, text))
    (sets : op ≠ .getGlobal) (run : step m = .ok status m') :
    m.stores? = m.stack.back?.map fun v => (text, v) := by
  unfold stores?
  rw [run, access]
  exact if_neg sets

/-- A step at an instruction that sets a global. -/
theorem step_of_sets (hfetch : fetch m = .ok (op, operand) mid)
    (sets : op = .defineGlobal ∨ op = .setGlobal) :
    step m = (execute op operand >>= fun _ => pure .running) mid := by
  have hother : op ≠ .giveBack := by
    rintro rfl
    simp at sets
  rw [step, bind_of_ok hfetch]
  simp only [if_neg hother]

/-- An instruction that fails before it has set a global stores nothing. -/
theorem stays_of_failed {i : Interruption} {last : Machine}
    (hfetch : fetch m = .ok (op, operand) mid) (sets : op = .defineGlobal ∨ op = .setGlobal)
    (ended : Ended (step m) m') (failed : execute op operand mid = .error i last)
    (stay : ∀ e, i = .raised e → NamesStay mid last) : m.stores? = none ∧ NamesStay m m' := by
  have hstep := (step_of_sets hfetch sets).trans (bind_of_error failed)
  have hmoved : Moved m mid := (fetch_advances m).moves _ _ hfetch
  have hmid : NamesStay m mid :=
    lasting_namesStay.elsewhere (by rw [hmoved.rest]) (by rw [hmoved.rest])
  rw [hstep] at ended
  cases ended
  exact ⟨stores?_of_error hstep, lasting_namesStay.trans hmid (stay _ rfl)⟩

/-- One global is set, to the value and under the name that the instruction stores. -/
def SetsGlobal (m m' : Machine) : Prop :=
  ∃ h text v, m.heap.object? h = some (.string text) ∧ m.stores? = some (text, v) ∧
    m'.heap = m.heap ∧ m'.globals = m.globals.insert h v

/-- An instruction that has set a global. -/
theorem setsGlobal_of_executed {h : Handle} {text : String} {v : Value} {last : Machine}
    (hfetch : fetch m = .ok (op, operand) mid) (sets : op = .defineGlobal ∨ op = .setGlobal)
    (ended : Ended (step m) m') (htext : mid.heap.object? h = some (.string text))
    (hname : nameConstant operand mid = .ok h mid) (hpeek : peek 0 mid = .ok v mid)
    (executed : execute op operand mid = .ok () last) (heap : last.heap = mid.heap)
    (globals : last.globals = mid.globals.insert h v) : SetsGlobal m m' := by
  have hget : op ≠ .getGlobal := by
    rintro rfl
    simp at sets
  have hmoved : Moved m mid := (fetch_advances m).moves _ _ hfetch
  have hstack : mid.stack = m.stack := by rw [hmoved.rest]
  have haccess : m.access? = some (op, text) :=
    access?_eq_some_iff.mpr ⟨.inr sets, operand, mid, h, hfetch, hname, htext⟩
  have hrun : step m = .ok .running last := (step_of_sets hfetch sets).trans (bind_of_ok executed)
  rw [hrun] at ended
  cases ended
  rw [show mid.heap = m.heap by rw [hmoved.rest]] at htext heap
  rw [show mid.globals = m.globals by rw [hmoved.rest]] at globals
  refine ⟨h, text, v, htext, ?_, heap, globals⟩
  rw [stores?_of_ok haccess hget hrun, ← hstack, (peek_eq_ok hpeek).2]
  rfl

/-- An instruction that sets a global stores the value on top of the stack, or it fails and changes
no global. -/
theorem step_sets (hfetch : fetch m = .ok (op, operand) mid)
    (sets : op = .defineGlobal ∨ op = .setGlobal) (ended : Ended (step m) m') :
    (m.stores? = none ∧ NamesStay m m') ∨ SetsGlobal m m' := by
  have hfails : ∀ {i last}, execute op operand mid = .error i last →
      (∀ e, i = .raised e → NamesStay mid last) → m.stores? = none ∧ NamesStay m m' :=
    stays_of_failed hfetch sets ended
  cases hname : nameConstant operand mid with
  | error i last =>
      have hexecute : execute op operand mid = .error i last := by
        rcases sets with rfl | rfl <;> exact bind_of_error hname
      refine .inl (hfails hexecute fun e he => ?_)
      subst he
      exact lasting_namesStay.pervasive.nameConstant operand mid last (hname ▸ .raised)
  | ok h last =>
      obtain ⟨rfl, text, htext⟩ := nameConstant_eq_ok hname
      have hsets : ∀ {v n}, peek 0 last = .ok v last → execute op operand last = .ok () n →
          n.heap = last.heap → n.globals = last.globals.insert h v → SetsGlobal m m' :=
        setsGlobal_of_executed hfetch sets ended htext hname
      rcases sets with rfl | rfl
      · have hdefine : execute .defineGlobal operand last =
            (peek 0 >>= fun v => setGlobal h v >>= fun _ => pop >>= fun _ => pure ()) last :=
          bind_of_ok hname
        cases hpeek : peek 0 last with
        | error i n =>
            refine .inl (hfails (hdefine.trans (bind_of_error hpeek)) fun e he => ?_)
            exact absurd (he ▸ hpeek) (peek_silent 0 _ _ _)
        | ok v n =>
            obtain ⟨rfl, -⟩ := peek_eq_ok hpeek
            exact .inr (hsets hpeek (hdefine.trans (bind_of_ok hpeek)) rfl rfl)
      · have hassign : execute .setGlobal operand last = assignGlobal h last := bind_of_ok hname
        rw [assignGlobal, bind_of_ok (get_apply last)] at hassign
        by_cases hcontains : last.globals.contains h
        · rw [if_pos hcontains] at hassign
          cases hpeek : peek 0 last with
          | error i n =>
              refine .inl (hfails (hassign.trans (bind_of_error hpeek)) fun e he => ?_)
              exact absurd (he ▸ hpeek) (peek_silent 0 _ _ _)
          | ok v n =>
              obtain ⟨rfl, -⟩ := peek_eq_ok hpeek
              exact .inr (hsets hpeek (hassign.trans (bind_of_ok hpeek)) rfl rfl)
        · rw [if_neg hcontains] at hassign
          rw [bind_of_ok (ask_of_ok (Heap.string_eq_ok_iff.mpr htext))] at hassign
          rcases raise_ends (α := Unit) (.undefinedVariable text) last with
            ⟨trace, n, hraise⟩ | ⟨f, n, -, hraise⟩
          · refine .inl (hfails (hassign.trans hraise) fun e he => ?_)
            have hended : Ended ((raise (.undefinedVariable text) : Action Unit) last) n :=
              hraise ▸ .raised
            exact lasting_namesStay.raise _ last n hended
          · refine .inl (hfails (hassign.trans hraise) fun e he => ?_)
            cases he

/-- What a step does to the globals is what it stores. -/
theorem step_stores (named : m.Named) (orderly : m.heap.Orderly) (interned : m.heap.Interned)
    (ended : Ended (step m) m') (interned' : m'.heap.Interned) :
    m'.Named ∧ ∀ name, Session.global? m' name =
      (latest? m.stores?.toList name).or (Session.global? m name) := by
  have hquiet : m.stores? = none → NamesStay m m' → m'.Named ∧ ∀ name, Session.global? m' name =
      (latest? m.stores?.toList name).or (Session.global? m name) := by
    intro hnone hstay
    obtain ⟨hnamed, hglobals⟩ := hstay.global? named orderly interned interned'
    exact ⟨hnamed, fun name => by rw [hglobals, hnone]; rfl⟩
  by_cases hsets : ∃ op operand mid, fetch m = .ok (op, operand) mid ∧
      (op = .defineGlobal ∨ op = .setGlobal)
  · obtain ⟨op, operand, mid, hfetch, hop⟩ := hsets
    rcases step_sets hfetch hop ended with
      ⟨hnone, hstay⟩ | ⟨h, text, v, htext, hstores, hheap, hglobals⟩
    · exact hquiet hnone hstay
    constructor
    · intro g w hg
      rw [hglobals, Std.TreeMap.getElem?_insert] at hg
      rw [hheap]
      split at hg
      · rename_i heq
        obtain rfl := Std.LawfulEqCmp.eq_of_compare heq
        exact ⟨text, htext⟩
      · exact named g w hg
    · intro name
      have hinsert := global?_insert interned htext v name
      have hsame : Session.global? m' name =
          Session.global? { m with globals := m.globals.insert h v } name := by
        simp only [Session.global?, hheap, hglobals]
      rw [hsame, hinsert, hstores, Option.toList_some, latest?_singleton]
      by_cases hname : name = text
      · rw [if_pos hname, if_pos hname]
        rfl
      · rw [if_neg hname, if_neg hname]
        rfl
  · refine hquiet (stores?_eq_none fun op text haccess => ?_)
      (lasting_namesStay.step ended fun op operand mid hfetch => ?_)
    · obtain ⟨hop, operand, mid, h, hfetch, -⟩ := access?_eq_some_iff.mp haccess
      exact hop.resolve_right fun hop => hsets ⟨op, operand, mid, hfetch, hop⟩
    · exact not_or.mp fun hop => hsets ⟨op, operand, mid, hfetch, hop⟩

/-! ### Undefined variables -/

/-- A global is found at the key that its name is. -/
theorem global?_eq (interned : m.heap.Interned) (htext : m.heap.object? h = some (.string text)) :
    Session.global? m text = m.globals[h]? := by
  refine Option.ext fun v => (global?_eq_some_iff interned).trans ?_
  constructor
  · rintro ⟨g, hg, hfound⟩
    exact interned.distinct g h text hg htext ▸ hfound
  · exact fun hfound => ⟨h, htext, hfound⟩

/-- The error that is raised has the cause that is given. -/
theorem cause_of_raise {α : Type} {cause : Cause} {e : RuntimeError}
    (run : (raise cause : Action α) m = .error (.raised e) m') : e.cause = cause := by
  rcases raise_ends (α := α) cause m with ⟨trace, last, hraise⟩ | ⟨f, last, -, hraise⟩
  · rw [hraise] at run
    cases run
    rfl
  · rw [hraise] at run
    cases run

/-- An instruction that reads a global, or assigns one, raises the error for an undefined variable
exactly when there is no global of that name. -/
theorem undefined_iff (ends : Ends Continues (step m)) (interned : m.heap.Interned)
    (access : m.access? = some (op, text)) (needs : op = .getGlobal ∨ op = .setGlobal) :
    (∃ e m', step m = .error (.raised e) m' ∧ e.cause = .undefinedVariable text) ↔
      Session.global? m text = none := by
  obtain ⟨-, operand, mid, h, hfetch, hname, htext⟩ := access?_eq_some_iff.mp access
  have hmoved : Moved m mid := (fetch_advances m).moves _ _ hfetch
  have hglobal : Session.global? m text = mid.globals[h]? := by
    rw [hmoved.rest] at htext ⊢
    exact global?_eq interned htext
  have hstep : step m = (execute op operand >>= fun _ => pure .running) mid := by
    rw [step, bind_of_ok hfetch]
    rcases needs with rfl | rfl <;> rfl
  have hask : ask (fun m => m.heap.string h) mid = .ok text mid :=
    ask_of_ok (Heap.string_eq_ok_iff.mpr htext)
  have hcontains : mid.globals.contains h = mid.globals[h]?.isSome :=
    Std.TreeMap.contains_eq_isSome_getElem?
  rw [hglobal]
  cases hfound : mid.globals[h]? with
  | some v =>
      simp only [reduceCtorEq, iff_false]
      rintro ⟨e, m', hrun, hcause⟩
      have hexecute : execute op operand mid = .error (.raised e) m' := by
        rw [hstep] at hrun
        cases hexecute : execute op operand mid with
        | ok u last =>
            rw [bind_of_ok hexecute] at hrun
            cases hrun
        | error i last =>
            rw [bind_of_error hexecute] at hrun
            cases hrun
            rfl
      rcases needs with rfl | rfl
      · have hread : readGlobal h mid = .ok v mid := by
          rw [readGlobal, bind_of_ok (get_apply mid), hfound]
          rfl
        have hpush : push v mid = .error (.raised e) m' :=
          ((bind_of_ok hname).trans (bind_of_ok hread)).symm.trans hexecute
        unfold push at hpush
        split at hpush
        · rw [cause_of_raise hpush] at hcause
          cases hcause
        · cases hpush
      · have hassign : assignGlobal h mid = .error (.raised e) m' :=
          (bind_of_ok hname).symm.trans hexecute
        rw [assignGlobal, bind_of_ok (get_apply mid), if_pos (by rw [hcontains, hfound]; rfl)]
          at hassign
        exact absurd hassign (Silent.bind (peek_silent 0) (fun _ => .change _) _ _ _)
  | none =>
      simp only [iff_true]
      obtain ⟨i, last, hraise⟩ := raise_eq (.undefinedVariable text) mid
      have hexecute : execute op operand mid = .error i last := by
        rcases needs with rfl | rfl
        · have hread : readGlobal h mid = .error i last := by
            rw [readGlobal, bind_of_ok (get_apply mid), hfound]
            exact (bind_of_ok hask).trans (hraise Value)
          exact (bind_of_ok hname).trans (bind_of_error hread)
        · refine (bind_of_ok hname).trans ?_
          rw [assignGlobal, bind_of_ok (get_apply mid), if_neg (by rw [hcontains, hfound]; simp)]
          exact (bind_of_ok hask).trans (hraise Unit)
      rw [hstep, bind_of_error hexecute] at ends ⊢
      rcases raise_ends (α := Unit) (.undefinedVariable text) mid with
        ⟨trace, m', hends⟩ | ⟨f, m', hother, hends⟩
      · cases (hraise Unit).symm.trans hends
        exact ⟨_, _, rfl, rfl⟩
      · cases (hraise Unit).symm.trans hends
        cases ends with
        | lost hlost => exact absurd hlost.1 hother

/-! ### Runs -/

/-- The heap of a machine that can go on, or has ended, is valid. -/
theorem Continues.valid {status : Status} (continues : Continues status m) : m.heap.Valid := by
  cases status with
  | running =>
      obtain ⟨C, P, poised, -⟩ := continues
      exact poised.secure.valid
  | halted => exact continues.secure.valid

/-- What a run does to the globals is what its instructions store, one after the other. -/
theorem run_writes (ready : m.Ready) (named : m.Named) (budget : Nat)
    (ended : Ended (run budget m) m') :
    m'.Named ∧ ∀ name, Session.global? m' name =
      (latest? (m.writes budget) name).or (Session.global? m name) := by
  induction budget generalizing m with
  | zero =>
      cases ended
      exact ⟨named, fun _ => rfl⟩
  | succ budget ih =>
      have hcontinues : Continues .running m := ready
      have hvalid := hcontinues.valid
      have hends := ready.step
      rcases ended.of_bind with ⟨e, hstep⟩ | ⟨status, mid, hstep, ended⟩
      · rw [hstep] at hends
        have hidle : m'.Idle := by
          cases hends with
          | raised _ hidle => exact hidle
        obtain ⟨hnamed, hglobals⟩ := step_stores named hvalid.toOrderly hvalid.toInterned
          (hstep ▸ .raised) hidle.secure.valid.toInterned
        refine ⟨hnamed, fun name => ?_⟩
        rw [writes, hstep, List.append_nil]
        exact hglobals name
      · rw [hstep] at hends
        have hmid : Continues status mid := by
          cases hends with
          | ok h => exact h
        obtain ⟨hnamed, hglobals⟩ := step_stores named hvalid.toOrderly hvalid.toInterned
          (hstep ▸ .ok) hmid.valid.toInterned
        cases status with
        | halted =>
            cases ended
            refine ⟨hnamed, fun name => ?_⟩
            rw [writes, hstep, List.append_nil]
            exact hglobals name
        | running =>
            obtain ⟨hnamed', hglobals'⟩ := ih hmid hnamed ended
            refine ⟨hnamed', fun name => ?_⟩
            rw [hglobals', hglobals, writes, hstep, latest?_append, Option.or_assoc]

end Machine

end Lox
