import Lox.Proofs.Evaluation.Expressions

/-!
# Statements are followed

The code of a statement brings the machine behind it, with the locals that the statement has
declared on the stack; or a value is given back, and the machine is behind the call. A loop is
followed round by round. Each round takes a step of the machine at least, so a loop that runs out of
fuel has kept the machine running for as long.

## Main definitions

* `Eval.Done` — the machine after a statement.

## Main results

* `rounds_follows` — loops, by induction on the count of rounds.
* `Encoding.Declaration.follows`, `Encoding.Declarations.follows` — by induction on the code.
-/

namespace Lox

namespace Eval

variable {p : Printout} {n : Nat} {w : World} {r s : Reference} {F : Site} {own : List String}
  {ip : Nat} {d : Datum} {name : String}

/-- The machine after a statement: it goes on behind the statement, or it has given back a datum to
a call around. -/
inductive Done (p : Printout) (F : Site) (own : List String) (ip : Nat) :
    Option Datum → World → Reference → Prop
  | on {w : World} {s : Reference} : Stands p F own w [] ip s → Done p F own ip none w s
  | back {d : Datum} {w : World} {s : Reference} : F.outer ≠ [] → Returned p F d w s →
      Done p F own ip (some d) w s

/-! ### Locals -/

/-- The datum on top of the stack becomes a local. -/
theorem Stands.declare (stands : Yields p F own [] ip d w r) (name : String) :
    Stands p F (name :: own) { w with locals := (name, d) :: w.locals } [] ip r :=
  { stands with
    lays := by
      rw [slots_cons, List.append_nil, ← List.append_assoc]
      exact stands.lays
    names := congrArg (name :: ·) stands.names }

/-- The scope of locals ends. -/
theorem leave_comes (added : List Variable)
    (stands : Stands p F (added.map Variable.name ++ own) w [] ip r)
    (reads : F.Reads ip (added.flatMap fun v => v.discard.plain)) :
    ∃ s, r.Comes s ∧ Stands p F own { w with locals := w.locals.drop added.length } []
      (ip + (added.flatMap fun v => v.discard.plain).length) s := by
  induction added generalizing w r ip with
  | nil => exact ⟨r, .refl r, stands⟩
  | cons v older ih =>
      obtain ⟨⟨first, d⟩, rest, hlocals, -, hrest⟩ := List.map_eq_cons_iff.mp stands.names
      have htop : Yields p F (older.map Variable.name ++ own) [] ip d { w with locals := rest } r :=
        { stands.withLocals rest with
          kept := stands.kept, calls := stands.calls, names := hrest
          lays := by
            have hlays := stands.lays
            rwa [hlocals, slots_cons, List.append_nil, ← List.append_assoc] at hlays }
      rw [List.flatMap_cons] at reads ⊢
      have hdrops : v.discard = .pop ∨ v.discard = .closeUpvalue := by
        cases hcaptured : v.captured <;> simp [Variable.discard, hcaptured]
      obtain ⟨s, hfirst, hs⟩ := htop.drop_step hdrops reads.left
      obtain ⟨t, hcomes, ht⟩ := ih hs reads.right
      refine ⟨t, (Reference.Comes.single hfirst).trans hcomes, ?_⟩
      rw [List.length_append, ← Nat.add_assoc, hlocals]
      exact ht

/-- The end of a block is followed: what the block has declared is gone. -/
theorem leave_follows {added : List Variable} {before : World} {result : Option Datum}
    (names : before.locals.map Prod.fst = own)
    (done : Done p F (added.map Variable.name ++ own) ip result w r)
    (reads : F.Reads ip (added.flatMap fun v => v.discard.plain)) :
    Follows p n (Done p F own (ip + (added.flatMap fun v => v.discard.plain).length))
      ((do
        leave before.locals.length
        return result : Act (Option Datum)) w) r := by
  rw [leave, bind_of_ok (modify_apply _ _)]
  cases done with
  | back inner returned =>
      exact .here (.back inner { returned.withLocals _ with
        kept := returned.kept, calls := returned.calls, lays := returned.lays })
  | on stands =>
      have hlength : w.locals.length - before.locals.length = added.length := by
        have := congrArg List.length (stands.names.trans (congrArg (_ ++ ·) names.symm))
        simp only [List.length_map, List.length_append] at this
        omega
      obtain ⟨t, hcomes, ht⟩ := leave_comes added stands reads
      rw [hlength]
      exact .ok hcomes (.on ht)

/-! ### Choices -/

/-- A choice between two statements is followed: its parts are, and the code of one part leads over
that of the other. -/
theorem choice_follows {condition : Act Datum} {yes no : Act (Option Datum)} {cs ds : List UInt8}
    (near : cs.length + 4 ≤ Compiler.maxJump) (far : ds.length + 1 ≤ Compiler.maxJump)
    (tests : Follows p n (Yields p F own [] ip) (condition w) r)
    (accepts : ∀ w s, Stands p F own w [] (ip + 4) s → F.Reads (ip + 4) cs →
      Follows p n (Done p F own (ip + 4 + cs.length)) (yes w) s)
    (rejects : ∀ w s, Stands p F own w [] (ip + 4 + cs.length + 4) s →
      F.Reads (ip + 4 + cs.length + 4) ds →
        Follows p n (Done p F own (ip + 4 + cs.length + 4 + ds.length)) (no w) s)
    (reads : F.Reads ip (OpCode.jumpIfFalse.long (cs.length + 4) ++ (OpCode.pop.plain ++
      (cs ++ (OpCode.jump.long (ds.length + 1) ++ (OpCode.pop.plain ++ ds)))))) :
    Follows p n (Done p F own (ip + 4 + cs.length + 4 + ds.length))
      ((do if (← condition).isFalsey then no else yes) w) r := by
  refine tests.bind fun d w' s hs => ?_
  obtain ⟨t, hcomes, ht⟩ := hs.branch reads near
  split
  · rename_i hfalse
    rw [if_pos hfalse, show ip + 3 + (cs.length + 4) = ip + 4 + cs.length + 3 by omega] at ht
    have hpop := reads.right.right.right.right
    obtain ⟨u, hstep, hu⟩ := ht.pop_step hpop.left
    exact (rejects w' u hu hpop.right).after (hcomes.trans (.single hstep))
  · rename_i htrue
    rw [if_neg htrue] at ht
    refine ((accepts w' t ht reads.right.right.left).onward ?_).after hcomes
    rintro result w'' u hu
    cases hu with
    | back inner returned => exact .here (.back inner returned)
    | on hu =>
        obtain ⟨v, hjump, hv⟩ := hu.jump_step reads.right.right.right.left far
        rw [show ip + 4 + cs.length + 3 + (ds.length + 1) = ip + 4 + cs.length + 4 + ds.length
          by omega] at hv
        exact .ok (.single hjump) (.on hv)

/-! ### Loops -/

/-- A loop is followed: its parts are, and each round takes a step of the machine at least. -/
theorem rounds_follows {test : Act Bool} {body : Act (Option Datum)} {advance : Act Unit}
    (start inside after again : Nat) {stop : Nat}
    (tests : ∀ w r, Stands p F own w [] start r → Follows p n
      (fun goesOn w s => Stands p F own w [] (if goesOn then inside else stop) s) (test w) r)
    (does : ∀ w r, Stands p F own w [] inside r → Follows p n (Done p F own after) (body w) r)
    (back : ∀ w r, Stands p F own w [] after r →
      ∃ s, Reference.step r = .ok .running s ∧ Stands p F own w [] again s)
    (advances : ∀ w r, Stands p F own w [] again r →
      Follows p n (fun (_ : Unit) w s => Stands p F own w [] start s) (advance w) r)
    {count : Nat} (le : count ≤ n) (stands : Stands p F own w [] start r) :
    Follows p count (Done p F own stop) (rounds test body advance count w) r := by
  induction count generalizing w r with
  | zero => exact .exhausted (show Reference.run 0 r = .ok .running r from rfl) (Nat.le_refl 0)
  | succ count ih =>
      rw [rounds]
      refine ((tests w r stands).mono le).bind fun goesOn w' s hs => ?_
      cases goesOn with
      | false => exact .here (.on hs)
      | true =>
          refine Follows.bind ((does w' s hs).mono le) fun result w'' t ht => ?_
          cases ht with
          | back inner returned => exact .here (.back inner returned)
          | on ht =>
              obtain ⟨u, hstep, hu⟩ := back w'' t ht
              have hrest := ((advances w'' u hu).mono (Nat.le_of_succ_le le)).bind
                fun _ w₃ v hv => ih (Nat.le_of_succ_le le) hv
              exact hrest.paid hstep

end Eval

namespace Encoding

open Eval

variable {p : Printout} {n : Nat} {F : Site} {K : Context} {own around : List String} {w : World}
  {r : Reference} {ip : Nat} {d : Datum} {name : String} {added : List Variable}
    {bs ds : List UInt8}

/-! ### Declarations -/

/-- The end of a declaration is followed. -/
theorem Declares.follows (declares : Declares K name added ds) (hosts : F.Hosts K own around)
    (stands : Yields p F own [] ip d w r) (reads : F.Reads ip ds) :
    Follows p n (fun (_ : Unit) w s => Stands p F (added.map Variable.name ++ own) w
      [] (ip + ds.length) s)
      (declare K.inScope name d w) r := by
  cases declares with
  | «local» captured inScope =>
      rw [declare, if_pos inScope]
      exact .here (stands.declare name)
  | global inScope found =>
      rw [declare, if_neg (by rw [inScope]; exact Bool.false_ne_true)]
      exact stands.follows reads (.short rfl nofun) nofun
        fun s hs => defineGlobal_answers hs (hosts.constants ▸ found)

/-- A declaration in a scope adds its name to the scope. -/
theorem Declares.scope (declares : Declares K name added ds) :
    added.map Variable.name = if K.inScope then [name] else [] := by
  have hnames := declares.names
  rw [Context.names_push] at hnames
  exact List.append_cancel_right hnames

/-- A statement adds the names that it declares to its scope. -/
theorem Declaration.scope {t : Stmt} (encodes : Declaration K t bs added) :
    added.map Variable.name = t.scope K.inScope := by
  have hnames := encodes.names
  rw [Context.names_push] at hnames
  exact List.append_cancel_right hnames

/-- The code of a declared function is that of the function. -/
theorem Function.realizes {parameters : List String} {body : List Stmt}
    (encodes : Function K name parameters body bs) (hosts : F.Hosts K own around)
    (mentions : Stmt.MentionsAll Plain true parameters.reverse (own ++ around) body) :
    ∃ (i : UInt8) (t : Template) (constants : List Constant) (captures : List Capture),
      bs = OpCode.closure.short i ++ captures.flatMap Capture.bytes ∧
      F.closure.constants[i.toNat]? = some (.function t constants) ∧
      t.upvalueCount = captures.length ∧
      Realizes ⟨some name, parameters, body⟩ { template := t, constants } := by
  cases encodes with
  | closure found named _ encoded =>
      cases encoded with
      | intro _ arity upvalues _ _ code _ names declarations =>
          refine ⟨_, _, _, _, rfl, hosts.constants ▸ found, upvalues,
            named, arity, ⟨_, ⟨_, _⟩, _, true⟩,
            own ++ around, _, _, ⟨names, ?_⟩, rfl, rfl, declarations, mentions, code⟩
          intro L hL other hother
          rcases List.mem_cons.mp hL with rfl | hL
          · rw [hosts.own] at hother
            rcases List.mem_append.mp hother with hown | hempty
            · exact .inr (List.mem_append_left _ hown)
            · exact .inl (List.mem_singleton.mp hempty)
          · exact (hosts.around L hL other hother).imp_right (List.mem_append_right _)

/-! ### Parts of loops -/

/-- The test of a loop is followed. -/
theorem Test.follows {condition : Option Expr} {distance later : Nat} {front back : List UInt8}
    (test : Test K condition distance front back) (skips : distance = later + 1) (obeys : Obeys p n)
    (hosts : F.Hosts K own around) (mentions : ∀ e ∈ condition, e.Mentions (Plain own around))
    (stands : Stands p F own w [] ip r) (reads : F.Reads ip front)
    (reads' : F.Reads (ip + front.length + later) back) :
    Follows p n (fun goesOn w s => Stands p F own w []
        (if goesOn then ip + front.length else ip + front.length + later + back.length) s)
      (Eval.test (invoke n) condition w) r := by
  cases test with
  | none => exact .here stands
  | @some condition _ bs encodes short =>
      simp only [List.append_assoc] at reads
      have hback :
          ip + (bs ++ OpCode.jumpIfFalse.long distance ++ OpCode.pop.plain).length + later =
          ip + bs.length + 3 + distance := by
        simp
        omega
      rw [hback] at reads' ⊢
      rw [Eval.test]
      refine (encodes.follows obeys hosts (mentions _ rfl) stands reads.left).bind
        fun d w' s hs => ?_
      obtain ⟨t, hcomes, ht⟩ := hs.branch reads.right short
      cases hfalse : d.isFalsey with
      | true =>
          rw [hfalse] at ht
          obtain ⟨u, hpop, hu⟩ := ht.pop_step reads'
          exact .ok (hcomes.trans (.single hpop)) hu
      | false =>
          rw [hfalse] at ht
          have hfront : ip + bs.length + 4 =
              ip + (bs ++ OpCode.jumpIfFalse.long distance ++ OpCode.pop.plain).length := by
            simp [Nat.add_assoc]
          exact .ok hcomes (hfront ▸ ht)

/-- Behind its test a loop goes on with its body. -/
theorem Step.enters {increment : Option Expr} {back reach : Nat} {middle : List UInt8}
    (step : Step K increment back middle reach) (stands : Stands p F own w [] ip r)
    (reads : F.Reads ip middle) :
    ∃ s, r.Comes s ∧ Stands p F own w [] (ip + middle.length) s := by
  cases step with
  | none => exact ⟨r, .refl r, stands⟩
  | @some increment _ bs encodes short =>
      simp only [List.append_assoc] at reads
      obtain ⟨s, hjump, hs⟩ := stands.jump_step reads.left (by omega)
      refine ⟨s, .single hjump, ?_⟩
      rwa [show ip + (OpCode.jump.long (bs.length + 4) ++ bs ++ OpCode.pop.plain ++
        OpCode.loop.long (back + bs.length + 7)).length = ip + 3 + (bs.length + 4) by simp; omega]

/-- The increment of a loop is followed, and the machine is where the loop starts again. -/
theorem Step.follows {increment : Option Expr} {back reach start again : Nat} {middle : List UInt8}
    (step : Step K increment back middle reach) (starts : start + back = ip)
    (goesOn : again + reach = ip + middle.length) (obeys : Obeys p n) (hosts : F.Hosts K own around)
    (mentions : ∀ e ∈ increment, e.Mentions (Plain own around))
    (stands : Stands p F own w [] again r) (reads : F.Reads ip middle) :
    Follows p n (fun (_ : Unit) w s => Stands p F own w [] start s)
      (advance (invoke n) increment w) r := by
  cases step with
  | none =>
      obtain rfl : again = start := by simpa [← starts] using goesOn
      exact .here stands
  | @some increment _ bs encodes short =>
      simp only [List.append_assoc] at reads
      obtain rfl : again = ip + 3 := by
        simp at goesOn
        omega
      rw [advance]
      refine (encodes.follows obeys hosts (mentions _ rfl) stands reads.right.left).bind
        fun d w' s hs => ?_
      obtain ⟨t, hpop, ht⟩ := hs.pop_step reads.right.right.left
      obtain ⟨u, hloop, hu⟩ := ht.loop_step start reads.right.right.right short
        (by omega)
      exact .ok ((Reference.Comes.single hpop).trans (.single hloop)) hu

/-- A loop is followed, if its body is. -/
theorem loop_follows {condition increment : Option Expr} {body : Act (Option Datum)}
    {front middle back : List UInt8} {reach : Nat}
    (test : Test K condition (1 + middle.length + bs.length + 3) front back)
    (step : Step K increment front.length middle reach)
    (short : reach + bs.length + 3 ≤ Compiler.maxJump) (obeys : Obeys p n)
    (hosts : F.Hosts K own around) (mentions : ∀ e ∈ condition, e.Mentions (Plain own around))
    (mentions' : ∀ e ∈ increment, e.Mentions (Plain own around))
    (does : ∀ w s, Stands p F own w [] (ip + front.length + middle.length) s →
      F.Reads (ip + front.length + middle.length) bs →
        Follows p n (Done p F own (ip + front.length + middle.length + bs.length)) (body w) s)
    (stands : Stands p F own w [] ip r)
    (reads : F.Reads ip
      (front ++ (middle ++ (bs ++ (OpCode.loop.long (reach + bs.length + 3) ++ back))))) :
    Follows p n
      (Done p F own (ip + front.length + (middle.length + bs.length + 3) + back.length))
      (rounds (Eval.test (invoke n) condition) body (advance (invoke n) increment) n w) r := by
  -- where the increment starts, or the test if there is none
  obtain ⟨again, hagain⟩ : ∃ again, again + reach = ip + front.length + middle.length := by
    cases step with
    | none => exact ⟨ip, rfl⟩
    | @some increment _ bs' => exact ⟨ip + front.length + 3, by simp; omega⟩
  have hback : F.Reads (ip + front.length + (middle.length + bs.length + 3)) back := by
    rw [← Nat.add_assoc, ← Nat.add_assoc]
    exact reads.right.right.right.right
  refine rounds_follows ip (ip + front.length + middle.length)
    (ip + front.length + middle.length + bs.length) again (fun w r h => ?_)
    (fun w r h => does w r h reads.right.right.left)
    (fun w r h => h.loop_step again reads.right.right.right.left short (by omega))
    (fun w r h => step.follows rfl hagain obeys hosts mentions' h reads.right.left)
    (Nat.le_refl n) stands
  refine (test.follows (by omega) obeys hosts mentions h reads.left hback).onward ?_
  rintro goesOn w' s hs
  cases goesOn with
  | false => exact .here hs
  | true =>
      obtain ⟨t, hcomes, ht⟩ := step.enters hs reads.right.left
      exact .ok hcomes ht

/-! ### Statements -/

mutual

/-- The code of a statement is followed. -/
theorem Declaration.follows {K : Context} {t : Stmt} {bs : List UInt8} {added : List Variable}
    {own : List String} {w : World} {ip : Nat} {r : Reference} (obeys : Obeys p n) :
    Declaration K t bs added → F.Hosts K own around → t.Mentions Plain K.inScope own around →
    Stands p F own w [] ip r → F.Reads ip bs →
      Follows p n (Done p F (added.map Variable.name ++ own) (ip + bs.length))
        (statement (invoke n) n K.inScope t w) r
  | .expression encodes, hosts, mentions, stands, reads => by
      rw [Stmt.Mentions] at mentions
      rw [statement, List.length_append, ← Nat.add_assoc]
      refine (encodes.follows obeys hosts mentions stands reads.left).bind fun d w' s hs => ?_
      obtain ⟨t, hpop, ht⟩ := hs.pop_step reads.right
      exact .ok (.single hpop) (.on ht)
  | .print encodes, hosts, mentions, stands, reads => by
      rw [Stmt.Mentions] at mentions
      rw [statement, List.length_append, ← Nat.add_assoc]
      refine (encodes.follows obeys hosts mentions stands reads.left).bind fun d w' s hs => ?_
      refine (Stands.plain_follows hs reads.right rfl nofun fun u hu => print_answers hu).bind
        fun _ w'' u hu => ?_
      exact .here (.on hu)
  | .giveBack inner encodes, hosts, mentions, stands, reads => by
      rw [Stmt.Mentions] at mentions
      rw [statement]
      refine (encodes.follows obeys hosts mentions stands reads.left).bind fun d w' s hs => ?_
      exact giveBack_follows hs reads.right (hosts.deep inner) fun t ht =>
        .back (hosts.deep inner) ht
  | .variable encodes declares, hosts, mentions, stands, reads => by
      rw [Stmt.Mentions] at mentions
      rw [statement, List.length_append, ← Nat.add_assoc]
      refine (encodes.follows obeys hosts mentions stands reads.left).bind fun d w' s hs => ?_
      refine (declares.follows hosts hs reads.right).bind fun _ w'' u hu => ?_
      exact .here (.on hu)
  | .function encodes declares, hosts, mentions, stands, reads => by
      rw [Stmt.Mentions] at mentions
      rw [statement, List.length_append, ← Nat.add_assoc]
      rw [← declares.scope] at mentions
      obtain ⟨i, t, constants, captures, rfl, found, count, realizes⟩ :=
        encodes.realizes (hosts.push _) mentions
      refine (closure_follows stands reads.left found count realizes).bind fun id w' s hs => ?_
      refine (declares.follows hosts hs reads.right).bind fun _ w'' u hu => ?_
      exact .here (.on hu)
  | @Declaration.block _ _ _ added body, hosts, mentions, stands, reads => by
      rw [Stmt.Mentions] at mentions
      rw [statement, List.length_append, ← Nat.add_assoc, bind_of_ok (get_apply w)]
      exact (body.follows obeys hosts.inside mentions stands reads.left).bind fun result w' s hs =>
        leave_follows stands.names hs reads.right
  | @Declaration.choice _ _ _ _ bs cs ds condition yes no near far, hosts, mentions, stands,
      reads => by
      rw [Stmt.Mentions] at mentions
      simp only [List.append_assoc] at reads
      rw [statement, show ip + (bs ++ OpCode.jumpIfFalse.long (cs.length + 4) ++
        OpCode.pop.plain ++ cs ++ OpCode.jump.long (ds.length + 1) ++
          OpCode.pop.plain ++ ds).length =
          ip + bs.length + 4 + cs.length + 4 + ds.length by simp; omega]
      exact choice_follows near far (condition.follows obeys hosts mentions.1 stands reads.left)
        (fun w s hs hyes => yes.follows obeys hosts mentions.2.1 hs hyes)
        (fun w s hs hno => no.follows obeys hosts mentions.2.2 hs hno) reads.right
  | @Declaration.loop _ _ _ _ front back middle bs reach test step body short,
    hosts, mentions, stands,
      reads => by
      rw [Stmt.Mentions] at mentions
      simp only [List.append_assoc] at reads
      rw [statement, show ip + (front ++ middle ++ bs ++ OpCode.loop.long (reach + bs.length + 3) ++
        back).length = ip + front.length + (middle.length + bs.length + 3) + back.length by
          simp; omega]
      exact loop_follows test step short obeys hosts mentions.1 mentions.2.1
        (fun w s hs hbody => body.follows obeys hosts mentions.2.2 hs hbody) stands reads

/-- The code of statements one after another is followed. -/
theorem Declarations.follows {K : Context} {ts : List Stmt} {bs : List UInt8}
    {added : List Variable}
    {own : List String} {w : World} {ip : Nat} {r : Reference} (obeys : Obeys p n) :
    Declarations K ts bs added → F.Hosts K own around →
    Stmt.MentionsAll Plain K.inScope own around ts →
    Stands p F own w [] ip r → F.Reads ip bs →
      Follows p n (Done p F (added.map Variable.name ++ own) (ip + bs.length))
        (statements (invoke n) n K.inScope ts w) r
  | .nil, _, _, stands, _ => by
      rw [statements]
      exact .here (.on stands)
  | .cons first others, hosts, mentions, stands, reads => by
      rw [Stmt.MentionsAll] at mentions
      rw [statements, List.length_append, ← Nat.add_assoc]
      rw [← first.scope] at mentions
      refine Follows.bind (first.follows obeys hosts mentions.1 stands reads.left)
        fun result w' s hs => ?_
      cases hs with
      | back inner returned => exact .here (.back inner returned)
      | on hs =>
          rw [List.map_append, List.append_assoc]
          have hothers := others.follows obeys (hosts.push _) mentions.2 hs reads.right
          exact hothers

end

end Encoding

end Lox
