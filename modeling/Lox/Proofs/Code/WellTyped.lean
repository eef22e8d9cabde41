import Lox.Proofs.Code.Typing

/-!
# The code of a tree is typed

Code that stands for a tree is typed in every context: an expression adds a value to the
stack, a statement leaves the stack as it is, and a declaration inside a scope adds the locals
that it declares, with the flag that tells whether an inner function captures them. Since the
context is that at the end of the compilation, a local whose slot is ever captured has the
flag from its declaration on, and the end of its scope closes its cell.

## Main results

* `Encoding.Expression.segment`, `Encoding.Declaration.segment` — the code of a tree.
* `Constant.Compiled.typed` — compiled functions are typed.
* `Encoding.Script.listed` — so are scripts.
-/

namespace Lox

variable {constants : List Constant} {upvalues : Nat} {bs ds : List UInt8} {P Q : Profile}

/-! ### Jumps -/

/-- Code that is skipped when the value on top of the stack is false. -/
theorem Segment.guard (short : ds.length ≤ Compiler.maxJump) (deep : P ≠ [])
    (inner : Segment constants upvalues ds (false :: P) (false :: P)) :
    Segment constants upvalues (OpCode.jumpIfFalse.long ds.length ++ ds) (false :: P)
      (false :: P) := by
  have hjump : Piece constants upvalues (OpCode.jumpIfFalse.long ds.length) (false :: P)
      (false :: P) (fun L offset => L.At (offset + 3 + ds.length) (false :: P))
      fun _ _ => True :=
    .line fun L offset htarget hnext => .jumpIfFalse short deep hnext htarget
  exact (hjump.append inner.ends).mono (fun L offset ⟨_, _, _, hend⟩ _ => ⟨hend, trivial⟩)
    fun _ _ _ => trivial

/-- Two ways from a test to the same place. -/
theorem Segment.branch (short : bs.length + 3 ≤ Compiler.maxJump)
    (short' : ds.length ≤ Compiler.maxJump) (deep : P ≠ [])
    (first : Segment constants upvalues bs (false :: P) Q)
    (second : Segment constants upvalues ds (false :: P) Q) :
    Segment constants upvalues (OpCode.jumpIfFalse.long (bs.length + 3) ++
      (bs ++ (OpCode.jump.long ds.length ++ ds))) (false :: P) Q := by
  have htest : Piece constants upvalues (OpCode.jumpIfFalse.long (bs.length + 3)) (false :: P)
      (false :: P) (fun L offset => L.At (offset + 3 + (bs.length + 3)) (false :: P))
      fun _ _ => True :=
    .line fun L offset htarget hnext => .jumpIfFalse short deep hnext htarget
  have hjump : Piece constants upvalues (OpCode.jump.long ds.length) Q (false :: P)
      (fun L offset => L.At (offset + 3 + ds.length) Q) fun _ _ => True :=
    .line fun L offset htarget _ => .jump short' htarget
  have hrest := Piece.append first (hjump.append second.ends)
  refine (htest.append hrest).mono ?_ fun _ _ _ => trivial
  rintro L offset ⟨-, -, -, -, hstart, hend⟩ -
  simp only [OpCode.length_long] at hstart hend ⊢
  exact ⟨by simpa only [Nat.add_assoc] using hstart, trivial, hend, trivial⟩

/-! ### Expressions -/

/-- The slot of a variable is one of the slots. -/
theorem slot?_lt {name : String} {slot : Nat} {vs : List Variable}
    (found : slot? name vs = some slot) : slot < vs.length := by
  induction vs with
  | nil => cases found
  | cons v vs ih =>
      simp only [slot?] at found
      split at found
      · cases found
        exact Nat.lt_succ_self _
      · exact Nat.lt_succ_of_lt (ih found)

section

variable {K : Context} {name : String} {r : Compiler.Reference}

/-- Reading a variable. -/
theorem Refers.read (refers : Refers K name r) (enough : K.layer.locals.length ≤ P.length) :
    Segment K.constants K.layer.captures.length (r.read.1.short r.read.2) P (false :: P) := by
  cases refers with
  | slot hslot =>
      exact .line fun _ _ hnext => .getLocal (Nat.lt_of_lt_of_le (slot?_lt hslot) enough) hnext
  | upvalue _ hleads => exact .line fun L offset hnext => .getUpvalue hleads.lt hnext
  | global _ hname => exact .line fun L offset hnext => .getGlobal hname hnext

/-- Assigning a variable. -/
theorem Refers.write (refers : Refers K name r) (enough : K.layer.locals.length ≤ P.length)
    (deep : P ≠ []) :
    Segment K.constants K.layer.captures.length (r.write.1.short r.write.2) (false :: P)
      (false :: P) := by
  cases refers with
  | slot hslot =>
      exact .line fun _ _ hnext => .setLocal (Nat.lt_of_lt_of_le (slot?_lt hslot) enough) hnext
  | upvalue _ hleads => exact .line fun L offset hnext => .setUpvalue hleads.lt deep hnext
  | global _ hname => exact .line fun L offset hnext => .setGlobal hname deep hnext

/-- The operations of an operator between two operands. -/
theorem BinaryOperator.segment (op : BinaryOperator) (deep : P ≠ []) :
    Segment constants upvalues (op.code.flatMap OpCode.plain) (false :: false :: P)
      (false :: P) := by
  have hbinary : ∀ {o : OpCode}, o.isBinary = true →
      Segment constants upvalues o.plain (false :: false :: P) (false :: P) :=
    fun ho => .line fun L offset hnext => .binary ho deep hnext
  have hnot : Segment constants upvalues OpCode.not.plain (false :: P) (false :: P) :=
    .line fun L offset hnext => .unary rfl deep hnext
  cases op with
  | notEqual | greaterEqual | lessEqual => exact (hbinary rfl).append hnot
  | equal | greater | less | add | subtract | multiply | divide => exact hbinary rfl

end

/-- The bytes of captured variables. -/
theorem length_captures (captures : List Capture) :
    (captures.flatMap Capture.bytes).length = 2 * captures.length := by
  induction captures with
  | nil => rfl
  | cons c captures ih =>
      simp only [List.flatMap_cons, List.length_append, ih, Capture.bytes, List.length_cons,
        List.length_nil]
      omega

/-- Dropping a temporary value. -/
theorem Segment.pop (deep : P ≠ []) : Segment constants upvalues OpCode.pop.plain (false :: P) P :=
  .line fun _ _ hnext => .drop rfl deep hnext

namespace Encoding

mutual

/-- The code of an expression adds a value to the stack. -/
theorem Expression.segment {K : Context} {e : Expr} {bs : List UInt8} {P : Profile}
    (enough : K.layer.locals.length ≤ P.length) (deep : P ≠ []) : Expression K e bs →
      Segment K.constants K.layer.captures.length bs P (false :: P)
  | .nil | .true | .false => .line fun _ _ hnext => .literal rfl hnext
  | .number hi | .text hi =>
      .line fun _ _ hnext => .constant hi rfl hnext
  | .variable hr => hr.read enough
  | .assign hr hvalue => (hvalue.segment enough deep).append (hr.write enough deep)
  | @Expression.unary _ op _ _ hoperand => by
      refine (hoperand.segment enough deep).append (.line fun _ _ hnext => .unary ?_ deep hnext)
      cases op <;> rfl
  | .binary hleft hright => by
      have := (hleft.segment enough deep).append
        (hright.segment (Nat.le_succ_of_le enough) (List.cons_ne_nil _ _))
      exact this.append (BinaryOperator.segment _ deep)
  | .both hleft hright hshort => by
      have := (hleft.segment enough deep).append
        (Segment.guard (by simpa [Nat.add_comm] using hshort) deep
          ((Segment.pop deep).append (hright.segment enough deep)))
      simpa [Nat.add_comm] using this
  | .either hleft hright hshort => by
      have hskip : Segment K.constants K.layer.captures.length [] (false :: P) (false :: P) :=
        .nil (.refl _)
      have := (hleft.segment enough deep).append
        (.branch (by decide) (by simpa [Nat.add_comm] using hshort) deep hskip
          ((Segment.pop deep).append (hright.segment enough deep)))
      simpa [Nat.add_comm] using this
  | @Expression.call _ _ arguments _ _ hcallee harguments hcount => by
      have hlength : (UInt8.ofNat arguments.length).toNat = arguments.length := by
        simp only [Draft.maxArity] at hcount
        rw [UInt8.toNat_ofNat']
        omega
      refine ((hcallee.segment enough deep).append (harguments.segment (Nat.le_succ_of_le enough)
        (List.cons_ne_nil _ _))).append (.line fun L offset hnext => ?_)
      have hfits : Fits K.constants K.layer.captures.length L offset
          (List.replicate ((UInt8.ofNat arguments.length).toNat + 1) false ++ P)
          (OpCode.call.short (UInt8.ofNat arguments.length)) := .call deep hnext
      rw [hlength, List.replicate_succ', List.append_assoc] at hfits
      exact hfits

/-- The code of arguments adds their values to the stack. -/
theorem Arguments.segment {K : Context} {es : List Expr} {bs : List UInt8} {P : Profile}
    (enough : K.layer.locals.length ≤ P.length) (deep : P ≠ []) : Arguments K es bs →
      Segment K.constants K.layer.captures.length bs P (List.replicate es.length false ++ P)
  | .nil => .nil (.refl _)
  | .cons hfirst hrest => by
      have := (hfirst.segment enough deep).append
        (hrest.segment (Nat.le_succ_of_le enough) (List.cons_ne_nil _ _))
      simpa [List.replicate_succ', List.append_assoc] using this

end

/-! ### Loops -/

/-- The test of a loop, whose jump leads to what stands at the end of the loop for it. -/
theorem Test.piece {K : Context} {condition : Option Expr} {distance : Nat}
    {front back : List UInt8} {P : Profile} (enough : K.layer.locals.length ≤ P.length)
    (deep : P ≠ [])
    (test : Test K condition distance front back) :
    ∃ B : Profile,
      Piece K.constants K.layer.captures.length front P P
        (fun L offset => front ≠ [] → L.At (offset + front.length - 1 + distance) B)
        (fun _ _ => True) ∧
      Segment K.constants K.layer.captures.length back B P := by
  cases test with
  | none => exact ⟨P, (Segment.nil (.refl _)).mono (fun _ _ _ _ => trivial) fun _ _ h => h,
      .nil (.refl _)⟩
  | @some condition _ bs hcondition hshort =>
      have hjump : Piece K.constants K.layer.captures.length (OpCode.jumpIfFalse.long distance)
          (false :: P) (false :: P)
          (fun L offset => L.At (offset + 3 + distance) (false :: P)) fun _ _ => True :=
        .line fun L offset htarget hnext => .jumpIfFalse hshort deep hnext htarget
      have hfront := (Piece.append (hcondition.segment enough deep) hjump).append (Segment.pop deep)
      refine ⟨false :: P, hfront.mono (fun L offset _ hneeds => ?_) fun _ _ _ => trivial, .pop deep⟩
      have htarget := hneeds (by simp [OpCode.plain])
      refine ⟨⟨trivial, ?_⟩, trivial⟩
      convert htarget using 1
      simp only [List.length_append, OpCode.length_long, OpCode.length_plain]
      omega

/-- The increment of a loop: it goes back to the test, and a round of the loop goes on with
it, or with the test if there is no increment. -/
theorem Step.piece {K : Context} {increment : Option Expr} {back reach : Nat}
    {middle : List UInt8} {P : Profile} (enough : K.layer.locals.length ≤ P.length)
    (deep : P ≠ [])
    (step : Step K increment back middle reach) :
    Piece K.constants K.layer.captures.length middle P P
      (fun L offset => back ≤ offset ∧ L.At (offset - back) P)
      (fun L offset => back ≤ offset → L.At (offset - back) P →
        reach ≤ offset + middle.length ∧ L.At (offset + middle.length - reach) P) := by
  cases step with
  | none =>
      refine (Segment.nil (.refl _)).mono (fun _ _ _ _ => trivial) fun L offset _ hback hstart => ?_
      exact ⟨hback, hstart⟩
  | @some increment _ bs hincrement hshort =>
      have hjump : Piece K.constants K.layer.captures.length (OpCode.jump.long (bs.length + 4))
          P P (fun L offset => L.At (offset + 3 + (bs.length + 4)) P) fun _ _ => True :=
        .line fun L offset htarget _ =>
          .jump (by simp only [Compiler.maxJump] at hshort ⊢; omega) htarget
      have hloop : Piece K.constants K.layer.captures.length
          (OpCode.loop.long (back + bs.length + 7)) P P
          (fun L offset => back + bs.length + 7 ≤ offset + 3 ∧
            L.At (offset + 3 - (back + bs.length + 7)) P) fun _ _ => True :=
        .line fun L offset htarget _ => .loop hshort htarget.1 htarget.2
      have hvalue := Piece.ends (hincrement.segment enough deep)
      have hmiddle := ((hjump.append hvalue).append (Segment.pop deep)).append hloop.ends
      refine hmiddle.mono ?_ ?_
      · rintro L offset ⟨-, -, -, hend⟩ ⟨hback, hstart⟩
        simp only [List.length_append, OpCode.length_long, OpCode.length_plain] at hend ⊢
        refine ⟨⟨⟨?_, trivial⟩, trivial⟩, by omega, ?_⟩
        · convert hend using 1
          omega
        · convert hstart using 1
          omega
      · rintro L offset ⟨⟨⟨-, -, hbegin, -⟩, -⟩, -, -, -⟩ - -
        simp only [List.length_append, OpCode.length_long, OpCode.length_plain] at hbegin ⊢
        refine ⟨by omega, ?_⟩
        convert hbegin using 1
        omega

/-- A loop. -/
theorem segment_of_loop {K : Context} {condition increment : Option Expr}
    {front back middle bs : List UInt8} {reach : Nat} {P : Profile}
    (enough : K.layer.locals.length ≤ P.length) (deep : P ≠ [])
    (test : Test K condition (1 + middle.length + bs.length + 3) front back)
    (step : Step K increment front.length middle reach)
    (body : Segment K.constants K.layer.captures.length bs P P)
    (short : reach + bs.length + 3 ≤ Compiler.maxJump) :
    Segment K.constants K.layer.captures.length
      (front ++ middle ++ bs ++ OpCode.loop.long (reach + bs.length + 3) ++ back) P P := by
  obtain ⟨B, hfront, hback⟩ := test.piece enough deep
  have hloop : Piece K.constants K.layer.captures.length
      (OpCode.loop.long (reach + bs.length + 3)) P B
      (fun L offset => reach + bs.length + 3 ≤ offset + 3 ∧
        L.At (offset + 3 - (reach + bs.length + 3)) P) fun _ _ => True :=
    .line fun L offset htarget _ => .loop short htarget.1 htarget.2
  have hwhole :=
    (((hfront.ends.append (step.piece enough deep)).append body).append hloop).append hback.ends
  refine hwhole.mono ?_ fun _ _ _ => trivial
  rintro L offset ⟨⟨⟨⟨⟨-, hstart, -⟩, hmiddle⟩, -⟩, -⟩, -, hend, -⟩ -
  simp only [List.length_append, OpCode.length_long] at hmiddle hend ⊢
  have hsame : offset + front.length - front.length = offset := by omega
  rw [hsame] at hmiddle ⊢
  obtain ⟨hreach, htarget⟩ := hmiddle (by omega) hstart
  refine ⟨⟨⟨⟨fun hnonempty => ?_, by omega, hstart⟩, trivial⟩, by omega, ?_⟩, trivial⟩
  · have := List.length_pos_iff.mpr hnonempty
    convert hend using 1
    omega
  · convert htarget using 1
    omega

/-! ### Statements -/

/-- The end of a scope takes its locals off the stack, newest first. -/
theorem segment_of_discard {constants : List Constant} {upvalues : Nat} (added : List Variable)
    {vs : List Variable} (seated : vs ≠ []) :
    Segment constants upvalues (added.flatMap fun v => v.discard.plain)
      (Profile.ofVariables (added ++ vs)) (Profile.ofVariables vs) := by
  induction added with
  | nil => exact .nil (.refl _)
  | cons v added ih =>
      have hdeep : Profile.ofVariables (added ++ vs) ≠ [] := by simp [Profile.ofVariables, seated]
      refine Segment.append ?_ ih
      obtain ⟨name, captured⟩ := v
      cases captured with
      | false => exact .pop hdeep
      | true => exact .line fun _ _ hnext => .closeUpvalue hdeep hnext

/-- The code that makes a closure adds it to the stack. -/
theorem Function.segment {K : Context} {name : String} {parameters : List String}
    {body : List Stmt} {bs : List UInt8} {b : Bool} {P : Profile}
    (function : Function K name parameters body bs)
    (reachable : ∀ c : Capture, c.IsOpen K.layer →
      c.Reachable (b :: P) K.layer.captures.length) :
    Segment K.constants K.layer.captures.length bs P (b :: P) := by
  obtain ⟨hfound, -, hopen, hbody⟩ := function
  obtain ⟨-, -, hcount, -⟩ := hbody
  refine .line fun L offset hnext => .closure hfound hcount.symm
    (fun c hc => reachable c (hopen c hc)) ?_
  rwa [List.length_append, length_captures, OpCode.length_short, ← Nat.add_assoc] at hnext

/-- A function that is declared in a scope may capture itself. -/
theorem reachable_of_isOpen {c : Capture} {L : Layer} (isOpen : c.IsOpen L) :
    c.Reachable (Profile.ofVariables L.locals) L.captures.length := by
  unfold Capture.IsOpen at isOpen
  unfold Capture.Reachable
  rwa [Profile.shares_ofVariables]

/-- A reachable variable stays reachable when a value is added to the stack. -/
theorem Reachable.push {c : Capture} {P : Profile} {upvalues : Nat} (b : Bool)
    (reachable : c.Reachable P upvalues) : c.Reachable (b :: P) upvalues := by
  unfold Capture.Reachable at reachable ⊢
  split at reachable
  · rename_i hlocal
    have := Profile.lt_of_shares reachable
    rw [if_pos hlocal, Profile.shares, if_neg (by omega)]
    exact reachable
  · rename_i hlocal
    rwa [if_neg hlocal]

mutual

/-- The code of a declaration adds its locals to the stack. -/
theorem Declaration.segment {K : Context} {s : Stmt} {bs : List UInt8} {added : List Variable}
    (seated : K.layer.locals ≠ []) : Declaration K s bs added →
      Segment K.constants K.layer.captures.length bs (Profile.ofVariables K.layer.locals)
        (Profile.ofVariables (added ++ K.layer.locals))
  | .expression he =>
    (he.segment (by simp [Profile.ofVariables]) (Profile.ofVariables_ne_nil seated)).append
      (.pop (Profile.ofVariables_ne_nil seated))
  | .print he => (he.segment (by simp [Profile.ofVariables])
    (Profile.ofVariables_ne_nil seated)).append
      (.line fun _ _ hnext => .drop rfl (Profile.ofVariables_ne_nil seated) hnext)
  | .giveBack _ he =>
    (he.segment (by simp [Profile.ofVariables]) (Profile.ofVariables_ne_nil seated)).append
      (.line fun _ _ _ => .giveBack (Profile.ofVariables_ne_nil seated))
  | .variable he hdeclares => by
      refine (he.segment (by simp [Profile.ofVariables])
        (Profile.ofVariables_ne_nil seated)).append ?_
      cases hdeclares with
      | «local» captured _ => exact .nil (.cons nofun (Profile.Weakens.refl _))
      | global _ hname =>
          exact .line fun _ _ hnext =>
            .defineGlobal hname (Profile.ofVariables_ne_nil seated) hnext
  | .function hfunction hdeclares => by
      cases hdeclares with
      | «local» captured _ =>
          rw [List.append_nil]
          exact hfunction.segment fun c hc => reachable_of_isOpen hc
      | global _ hname =>
          have hclosure := hfunction.segment (b := false)
            fun c hc => Reachable.push false (reachable_of_isOpen hc)
          exact Segment.append hclosure (.line fun _ _ hnext =>
            .defineGlobal hname (Profile.ofVariables_ne_nil seated) hnext)
  | .block hbody => (hbody.segment (K := K.inside) seated).append (segment_of_discard _ seated)
  | .choice hcondition hyes hno hshort hshort' => by
      have hdeep := Profile.ofVariables_ne_nil seated
      have hbranch := Segment.branch (by simpa [Nat.add_comm] using hshort)
        (by simpa [Nat.add_comm] using hshort') hdeep
        ((Segment.pop hdeep).append (hyes.segment seated))
        ((Segment.pop hdeep).append (hno.segment seated))
      have := (hcondition.segment (by simp [Profile.ofVariables]) hdeep).append hbranch
      simpa [Nat.add_comm, Nat.add_assoc] using this
  | .loop htest hstep hbody hshort =>
      segment_of_loop (by simp [Profile.ofVariables])
        (Profile.ofVariables_ne_nil seated) htest hstep
        (hbody.segment seated) hshort

/-- The code of declarations adds all their locals to the stack. -/
theorem Declarations.segment {K : Context} {ss : List Stmt} {bs : List UInt8}
    {added : List Variable} (seated : K.layer.locals ≠ []) : Declarations K ss bs added →
      Segment K.constants K.layer.captures.length bs (Profile.ofVariables K.layer.locals)
        (Profile.ofVariables (added ++ K.layer.locals))
  | .nil => .nil (.refl _)
  | .cons hfirst hrest => by
      have := hrest.segment (K := K.push _) (List.append_ne_nil_of_right_ne_nil _ seated)
      rw [List.append_assoc]
      exact (hfirst.segment seated).append this

end

/-! ### Functions -/

/-- The code of a function is typed. -/
theorem Body.listed {outer : List Layer} {parameters : List String} {body : List Stmt}
    {captures : List Capture} {t : Template} {constants : List Constant}
    (function : Body outer parameters body captures t constants) : t.Listed constants := by
  obtain ⟨hname, harity, hcount, hroom, -, hcode, hlines, hown, hbody⟩ := function
  have hlength := congrArg List.length hown
  simp only [List.length_map, List.length_append, List.length_reverse, List.length_singleton]
    at hlength
  have hseated := List.ne_nil_of_length_eq_add_one hlength
  have hsegment := hbody.segment hseated
  rw [← hcount] at hsegment hroom
  refine Template.listed_of_segment hlines hroom hcode ?_
    (Profile.ofVariables_ne_nil (List.append_ne_nil_of_right_ne_nil _ hseated))
    (fun hnone => absurd hnone hname) hsegment
  rw [Profile.ofVariables, List.length_map, harity, hlength]

/-- The code of a script is typed. -/
theorem Script.listed {program : List Stmt} {t : Template} {constants : List Constant}
    (script : Script program t constants) : t.Listed constants := by
  obtain ⟨-, harity, hcount, hlines, bs, own, hcode, hown, hbody⟩ := script
  have hlength := congrArg List.length hown
  rw [List.length_map, List.length_singleton] at hlength
  have hseated := List.ne_nil_of_length_eq_add_one hlength
  have hsegment := hbody.segment hseated
  have hown : (Profile.ofVariables own).length = 1 := by
    rw [Profile.ofVariables, List.length_map, hlength]
  refine Template.listed_of_segment hlines (hcount ▸ Nat.zero_le _) hcode ?_
    (Profile.ofVariables_ne_nil hseated) (fun _ => hown) (by rw [hcount]; exact hsegment)
  rw [harity, hown]

end Encoding

/-- Compiled functions are typed, and so are the functions among their constants. -/
theorem Constant.Compiled.typed {k : Constant} (compiled : k.Compiled) : k.Typed := by
  induction compiled with
  | number x => exact .number x
  | text s => exact .text s
  | function hbody _ ih => exact .function hbody.listed ih

end Lox
