import Lox.Proofs.Heap.Allocation
import Lox.Session

/-!
# Sessions and their histories

A host gives a machine sources, makes functions known to it and lets it collect, in any order. A
source is run to its end: its budget is large enough. A *history* is a sequence of such calls
that succeed, on a machine that is new at first.

## Main definitions

* `Session.Step`, `Session.Arises` — one call, and the machines that a history leads to.
-/

namespace Lox.Session

/-- One call that succeeds. The host functions that are made known fulfil a condition. -/
inductive Step (admits : HostFunction → Prop) (m : Machine) : Machine → Prop
  | bind {name : String} {run : HostFunction} {m' : Machine} : admits run →
      Session.bind name run m = .ok () m' → Step admits m m'
  | runSource {budget : Nat} {source : String} {outcome : Outcome} {m' : Machine} :
      Session.runSource budget source m = .ok outcome m' → outcome ≠ .paused → Step admits m m'
  | interpret {budget : Nat} {source : String} {outcome : Outcome} {m' : Machine} :
      Session.interpret budget source m = .ok outcome m' → outcome ≠ .paused → Step admits m m'
  | collect {m' : Machine} : Session.collect m = .ok () m' → Step admits m m'
  | takeOutput {text : String} {m' : Machine} : Session.takeOutput m = .ok text m' →
      Step admits m m'
  | takeDiagnostics {text : String} {m' : Machine} : Session.takeDiagnostics m = .ok text m' →
      Step admits m m'

/-- The machines that histories lead to. -/
inductive Arises (admits : HostFunction → Prop) : Machine → Prop
  | begin {settings : Settings} {clock : Nat → Float} {m : Machine} :
      Session.begin settings clock = .ok () m → Arises admits m
  | step {m m' : Machine} : Arises admits m → Step admits m m' → Arises admits m'

/-! ### Globals -/

/-- A global is found by its name. -/
theorem global?_eq_some_iff {m : Machine} (interned : m.heap.Interned) {name : String} {v : Value} :
    global? m name = some v ↔
      ∃ h, m.heap.object? h = some (.string name) ∧ m.globals[h]? = some v := by
  unfold global?
  cases hfound : m.heap.findInterned? name (fingerprint name) with
  | some h =>
      have hself := interned.findInterned?_eq_some_iff.mp hfound
      constructor
      · exact fun hv => ⟨h, hself, hv⟩
      · rintro ⟨g, hg, hv⟩
        obtain rfl := interned.distinct g h name hg hself
        exact hv
  | none =>
      constructor
      · rintro ⟨⟩
      · rintro ⟨g, hg, -⟩
        rw [interned.findInterned?_eq_some_iff.mpr hg] at hfound
        cases hfound

end Lox.Session
