import Lox.Proofs.Code.Alignment
import Lox.Proofs.Reference.Steps

/-!
# Where a reference machine stands

A reference machine that a ready machine mirrors stands in front of an instruction of typed code,
and its stack has the height that the typing tells. So an instruction never looks at the slot of the
function that is called, nor below it.

## Main definitions

* `Reference.Footing` — a reference machine in front of an instruction of typed code.

## Main results

* `Ready.footing` — a reference machine that a ready machine mirrors has a footing.
* `Footing.reads` — reading the instruction.
-/

namespace Lox

/-- A typed listing may be entered inside only. -/
theorem Listing.Typed.bounded {L : Listing} {constants : List Constant} {upvalues : Nat}
    (typed : L.Typed constants upvalues) : L.Bounded constants upvalues :=
  fun first l rest split => ⟨L, typed first l rest split, fun _ _ isAt => (isAt.lt typed).le⟩

namespace Reference

/-- A reference machine in front of an instruction of typed code. -/
structure Footing (r : Reference) (a : Activation) (outer : List Activation) (k : Closure)
    (pre : Listing) (l : Line) (post : Listing) : Prop where
  calls : r.calls = a :: outer
  closure : r.closure? a.callee = some k
  code : (pre ++ l :: post).code = k.template.code
  ip : a.ip = pre.size
  typed : (pre ++ l :: post).Typed k.constants k.template.upvalueCount
  ends : (pre ++ l :: post).Ends k.constants k.template.upvalueCount (k.template.name = none)
  height : r.stack.size = a.base + l.profile.length

end Reference

namespace Machine

variable {m : Machine} {r : Reference} {π : Picture}

/-- A reference machine that a ready machine mirrors has a footing. -/
theorem Ready.footing (ready : m.Ready) (mirrors : Mirrors π m r) :
    ∃ a outer k pre l post, r.Footing a outer k pre l post := by
  obtain ⟨C, P, poised, whole, pre, post, hsplit, hip, henters⟩ := ready
  rcases post with _ | ⟨l, post⟩
  · exact henters.elim
  have hall := mirrors.frames
  rw [poised.frames] at hall
  obtain ⟨a, outer, hframe, -, hcalls⟩ := List.forall₂_cons_left_iff.mp hall
  obtain ⟨k, name, hclosure, htemplate, hname, hconstants⟩ :=
    mirrors.function hframe (Heap.function_eq_ok_iff.mpr poised.runs.function)
  have hsame : k.constants = C.constants :=
    List.right_unique_forall₂' (fun _ _ _ left right => left.unique right) hconstants
      poised.runs.holds
  have hupvalues : k.template.upvalueCount = C.function.upvalueCount := by rw [htemplate]; rfl
  refine ⟨a, outer, k, pre, l, post, hcalls, hclosure, ?_, hframe.ip.trans hip, ?_, ?_, ?_⟩
  · rw [← hsplit, ← poised.runs.code, htemplate]
    rfl
  · rw [← hsplit, hupvalues, hsame]
    exact poised.runs.listed
  · obtain ⟨body, Q, hends, hclosed, hlevel⟩ := poised.runs.ends
    rw [← hsplit, hupvalues, hsame]
    refine ⟨body, Q, hends, hclosed, fun hnone => hlevel ?_⟩
    rw [htemplate] at hnone
    obtain rfl : name = none := hnone
    cases hn : C.function.name with
    | none => rfl
    | some g =>
        rw [hn] at hname
        exact hname.elim
  · have hlength := henters.length_eq
    rw [mirrors.size, poised.height, poised.slots, hframe.base, hlength, Nat.add_comm]

end Machine

namespace Reference

variable {r : Reference} {a : Activation} {outer : List Activation} {k : Closure}
  {pre post : Listing} {l : Line} {op : OpCode} {operand : Nat} {bs : List UInt8}

/-- Reading an instruction whose bytes are there. -/
theorem fetch_of_reads (calls : r.calls = a :: outer) (closure : r.closure? a.callee = some k)
    (form : OpCode.Form op operand bs)
    (reads : ∀ i < bs.length, k.template.code[a.ip + i]? = bs[i]?) :
    fetch r = .ok (op, operand)
      { r with calls := { a with ip := a.ip + 1 + op.width } :: outer } := by
  have hcurrent : current r = .ok k r := by
    rw [current, bind_of_ok (activation_of calls), bind_of_ok (get_apply r), closure]
    rfl
  have hreads : Chunk.Reads { code := k.template.code.toArray } a.ip bs := fun i hi => by
    simpa using reads i hi
  have hop := hreads.opAt? form
  unfold Chunk.opAt? at hop
  obtain ⟨byte, hbyte, hdecoded⟩ := Option.bind_eq_some_iff.mp hop
  have hbyte' : k.template.code[a.ip]? = some byte := by simpa using hbyte
  have hoperand : operandAt? k.template.code op (a.ip + 1) = some operand := hreads.operandAt? form
  rw [fetch, bind_of_ok (activation_of calls), bind_of_ok hcurrent, hbyte',
    bind_of_ok (show demand (some byte) r = .ok byte r from rfl), hdecoded,
    bind_of_ok (show demand (some op) r = .ok op r from rfl), hoperand,
    bind_of_ok (show demand (some operand) r = .ok operand r from rfl), setIp,
    bind_of_ok (modify_apply _ _), calls]
  rfl

namespace Footing

/-- The bytes of the instruction. -/
theorem reads (footing : r.Footing a outer k pre l post) :
    ∀ i < l.bytes.length, k.template.code[a.ip + i]? = l.bytes[i]? := fun i hi => by
  rw [← footing.code, footing.ip, Listing.code_append, Listing.code_cons, Listing.size,
    List.getElem?_append_right (Nat.le_add_right _ _), Nat.add_sub_cancel_left,
    List.getElem?_append_left hi]

/-- In front of the end of some code at the beginning of a script, the machine stands in a listing
of that code. -/
theorem bounded (footing : r.Footing a outer k pre l post) {code : List UInt8}
    (covers : k.template.code = code ∨
      k.template.code = code ++ (OpCode.pushNil.plain ++ OpCode.giveBack.plain))
    (lt : a.ip < code.length) :
    ∃ more, (pre ++ l :: more).code = code ∧
      (pre ++ l :: more).Bounded k.constants k.template.upvalueCount := by
  rcases covers with heq | hend
  · exact ⟨post, footing.code.trans heq, footing.typed.bounded⟩
  · obtain ⟨body, P, hsplit, hclosed, -⟩ := footing.ends
    have hcode : body.code = code := by
      have := footing.code
      rw [hsplit, Listing.code_append, hend] at this
      exact List.append_cancel_right this
    rcases List.append_eq_append_iff.mp hsplit with ⟨more, hbody, hmore⟩ | ⟨more, rfl, -⟩
    · cases more with
      | nil =>
          rw [List.append_nil] at hbody
          rw [footing.ip, ← hcode, hbody] at lt
          exact absurd lt (Nat.lt_irrefl _)
      | cons l' more =>
          obtain ⟨rfl, -⟩ := List.cons_eq_cons.mp hmore
          exact ⟨more, by rw [← hbody, hcode], hbody ▸ hclosed.bounded⟩
    · rw [footing.ip, ← hcode, Listing.size_append] at lt
      exact absurd lt (by simp [Listing.size])

/-- At the end of the code of a script, there is nothing on the stack but the script. -/
theorem level (footing : r.Footing a outer k pre l post) {code : List UInt8}
    (script : k.template.name = none)
    (ends : k.template.code = code ++ (OpCode.pushNil.plain ++ OpCode.giveBack.plain))
    (ip : a.ip = code.length) : r.stack.size = a.base + 1 := by
  obtain ⟨body, P, hsplit, -, hlevel⟩ := footing.ends
  have hcode : body.code = code := by
    have := footing.code
    rw [hsplit, Listing.code_append, ends] at this
    exact List.append_cancel_right this
  have hreal := footing.typed.real
  have hsize : pre.size = body.size := by rw [← footing.ip, ip, Listing.size, hcode]
  rw [footing.height, Nat.add_left_cancel_iff]
  rcases List.append_eq_append_iff.mp hsplit with ⟨more, hbody, hmore⟩ | ⟨more, rfl, hmore⟩
  · cases more with
    | nil =>
        obtain ⟨rfl, -⟩ := List.cons_eq_cons.mp hmore
        exact hlevel script
    | cons l' more =>
        obtain ⟨rfl, -⟩ := List.cons_eq_cons.mp hmore
        have := hreal l (by simp)
        rw [hbody, Listing.size_append, Listing.size_cons] at hsize
        omega
  · cases more with
    | nil =>
        obtain ⟨rfl, -⟩ := List.cons_eq_cons.mp hmore
        exact hlevel script
    | cons l' more =>
        have := hreal l' (by simp)
        rw [Listing.size_append, Listing.size_cons] at hsize
        omega

end Footing

end Reference

end Lox
