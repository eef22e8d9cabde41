import Lox.Proofs.Evaluation.Calls

/-!
# Expressions are followed

The code of an expression brings the machine to where the evaluator is when it has the value of the
expression: behind the code, with the value on top of what was on the stack. The induction is on the
code of the expression, part by part. Calls inside of it are taken for granted.

## Main results

* `Eval.conjunction_follows`, `Eval.disjunction_follows` — the operators that jump.
* `Encoding.Expression.follows`, `Encoding.Arguments.follows`.
-/

namespace Lox.Eval

variable {p : Printout} {n : Nat} {F : Site} {own : List String} {w : World} {temps : List Datum}
  {ip : Nat} {r : Reference} {left right : Act Datum} {ds : List UInt8}

/-- A conjunction is followed: the value of the left side stays where it is false, and the code of
the right side replaces it otherwise. -/
theorem conjunction_follows (short : ds.length + 1 ≤ Compiler.maxJump)
    (begins : Follows p n (Yields p F own temps ip) (left w) r)
    (ends : ∀ w s, Stands p F own w temps (ip + 4) s → F.Reads (ip + 4) ds →
      Follows p n (Yields p F own temps (ip + 4 + ds.length)) (right w) s)
    (reads : F.Reads ip (OpCode.jumpIfFalse.long (ds.length + 1) ++ (OpCode.pop.plain ++ ds))) :
    Follows p n (Yields p F own temps (ip + 4 + ds.length))
      ((do let d ← left; if d.isFalsey then pure d else right) w) r := by
  refine begins.bind fun d w' s hs => ?_
  obtain ⟨t, hcomes, ht⟩ := hs.branch reads short
  split
  · rename_i hfalse
    rw [if_pos hfalse, show ip + 3 + (ds.length + 1) = ip + 4 + ds.length by omega] at ht
    exact .ok hcomes ht
  · rename_i htrue
    rw [if_neg htrue] at ht
    exact (ends w' t ht reads.right.right).after hcomes

/-- A disjunction is followed: a jump leads over the code of the right side, and where the value of
the left side is false, another one leads over this jump. -/
theorem disjunction_follows (short : ds.length + 1 ≤ Compiler.maxJump)
    (begins : Follows p n (Yields p F own temps ip) (left w) r)
    (ends : ∀ w s, Stands p F own w temps (ip + 7) s → F.Reads (ip + 7) ds →
      Follows p n (Yields p F own temps (ip + 7 + ds.length)) (right w) s)
    (reads : F.Reads ip (OpCode.jumpIfFalse.long 3 ++
      (OpCode.jump.long (ds.length + 1) ++ (OpCode.pop.plain ++ ds)))) :
    Follows p n (Yields p F own temps (ip + 7 + ds.length))
      ((do let d ← left; if d.isFalsey then right else pure d) w) r := by
  refine begins.bind fun d w' s hs => ?_
  obtain ⟨t, htest, ht⟩ := hs.jumpIfFalse_step reads.left (by decide)
  split
  · rename_i hfalse
    rw [if_pos hfalse] at ht
    obtain ⟨u, hpop, hu⟩ := ht.pop_step reads.right.right.left
    exact (ends w' u hu reads.right.right.right).after ((Reference.Comes.single htest).trans
      (.single hpop))
  · rename_i htrue
    rw [if_neg htrue] at ht
    obtain ⟨u, hjump, hu⟩ := ht.jump_step reads.right.left short
    rw [show ip + 3 + 3 + (ds.length + 1) = ip + 7 + ds.length by omega] at hu
    exact .ok ((Reference.Comes.single htest).trans (.single hjump)) hu

end Lox.Eval

namespace Lox.Encoding

open Eval

variable {p : Printout} {n : Nat} {F : Site} {K : Context} {own around : List String}

mutual

/-- The code of an expression is followed. -/
theorem Expression.follows {e : Expr} {bs : List UInt8} {w : World} {temps : List Datum} {ip : Nat}
    {r : Reference} (obeys : Obeys p n) (hosts : F.Hosts K own around) :
    Expression K e bs → e.Mentions (Plain own around) →
    Stands p F own w temps ip r → F.Reads ip bs →
      Follows p n (Yields p F own temps (ip + bs.length)) (expression (invoke n) e w) r
  | .nil, _, stands, reads => by
      rw [expression]
      exact stands.plain_follows reads rfl nofun fun s hs => push_answers hs _
  | .true, _, stands, reads => by
      rw [expression]
      exact stands.plain_follows reads rfl nofun fun s hs => push_answers hs _
  | .false, _, stands, reads => by
      rw [expression]
      exact stands.plain_follows reads rfl nofun fun s hs => push_answers hs _
  | .number found, _, stands, reads => by
      rw [expression]
      exact literal_follows stands reads (hosts.constants ▸ found) (.inl ⟨_, rfl, rfl⟩)
  | .text found, _, stands, reads => by
      rw [expression]
      exact literal_follows stands reads (hosts.constants ▸ found) (.inr ⟨_, rfl, rfl⟩)
  | .variable refers, mentions, stands, reads => by
      rw [Expr.Mentions] at mentions
      rw [expression]
      exact read_follows hosts mentions refers stands reads
  | .assign refers value, mentions, stands, reads => by
      rw [Expr.Mentions] at mentions
      rw [expression, List.length_append, ← Nat.add_assoc]
      refine (value.follows obeys hosts mentions.2 stands reads.left).bind fun d w' s hs => ?_
      refine (assign_follows hosts mentions.1 refers hs reads.right).bind fun _ w'' t ht => ?_
      exact .here ht
  | .unary operand, mentions, stands, reads => by
      rw [Expr.Mentions] at mentions
      rw [expression, List.length_append, ← Nat.add_assoc]
      refine (operand.follows obeys hosts mentions stands reads.left).bind fun d w' s hs => ?_
      exact unary_follows _ hs reads.right
  | .binary left right, mentions, stands, reads => by
      rw [Expr.Mentions] at mentions
      rw [expression, List.length_append, ← Nat.add_assoc]
      have hright := reads.left.right
      have hop := reads.right
      rw [List.length_append, ← Nat.add_assoc] at hop ⊢
      refine (left.follows obeys hosts mentions.1 stands reads.left.left).bind fun a w' s hs => ?_
      refine (right.follows obeys hosts mentions.2 hs hright).bind fun b w'' t ht => ?_
      exact binary_follows _ ht hop
  | @Expression.both _ _ _ bs ds left right short, mentions, stands, reads => by
      rw [Expr.Mentions] at mentions
      simp only [List.append_assoc] at reads
      rw [expression, show ip +
        (bs ++ OpCode.jumpIfFalse.long (ds.length + 1) ++ OpCode.pop.plain ++ ds).length =
          ip + bs.length + 4 + ds.length by simp; omega]
      exact conjunction_follows short (left.follows obeys hosts mentions.1 stands reads.left)
        (fun w s hs => right.follows obeys hosts mentions.2 hs) reads.right
  | @Expression.either _ _ _ bs ds left right short, mentions, stands, reads => by
      rw [Expr.Mentions] at mentions
      simp only [List.append_assoc] at reads
      rw [expression, show ip +
        (bs ++ OpCode.jumpIfFalse.long 3 ++ OpCode.jump.long (ds.length + 1) ++
          OpCode.pop.plain ++ ds).length = ip + bs.length + 7 + ds.length by simp; omega]
      exact disjunction_follows short (left.follows obeys hosts mentions.1 stands reads.left)
        (fun w s hs => right.follows obeys hosts mentions.2 hs) reads.right
  | .call callee arguments few, mentions, stands, reads => by
      rw [Expr.Mentions] at mentions
      rw [expression, List.length_append, ← Nat.add_assoc]
      have harguments := reads.left.right
      have hcall := reads.right
      rw [List.length_append, ← Nat.add_assoc] at hcall ⊢
      refine (callee.follows obeys hosts mentions.1 stands reads.left.left).bind fun d w' s hs => ?_
      refine (arguments.follows obeys hosts mentions.2 hs harguments).bind fun ds w'' t ht => ?_
      obtain ⟨hlength, ht⟩ := ht
      rw [List.append_assoc] at ht
      rw [← hlength] at few hcall
      exact call_follows obeys ht hcall few

/-- The code of arguments is followed. -/
theorem Arguments.follows {es : List Expr} {bs : List UInt8} {w : World} {temps : List Datum}
    {ip : Nat} {r : Reference} (obeys : Obeys p n) (hosts : F.Hosts K own around) :
    Arguments K es bs → Expr.MentionsAll (Plain own around) es →
    Stands p F own w temps ip r → F.Reads ip bs →
      Follows p n (fun ds w s => ds.length = es.length ∧
        Stands p F own w (temps ++ ds) (ip + bs.length) s) (expressions (invoke n) es w) r
  | .nil, _, stands, _ => by
      rw [expressions]
      exact .here ⟨rfl, by simpa using stands⟩
  | .cons first others, mentions, stands, reads => by
      rw [Expr.MentionsAll] at mentions
      rw [expressions, List.length_append, ← Nat.add_assoc]
      refine (first.follows obeys hosts mentions.1 stands reads.left).bind fun d w' s hs => ?_
      refine (others.follows obeys hosts mentions.2 hs reads.right).bind fun ds w'' t ht => ?_
      obtain ⟨hlength, ht⟩ := ht
      rw [List.append_assoc] at ht
      exact .here ⟨congrArg (· + 1) hlength, ht⟩

end

end Lox.Encoding
