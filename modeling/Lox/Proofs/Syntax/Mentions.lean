import Lox.Proofs.Syntax.Tree

/-!
# The variables that a program mentions

A program is walked with the names of the locals in scope: those of the function that a place is
in, and those of the functions around it. What is asked of a variable that is mentioned may depend
on both.

## Main definitions

* `Expr.Mentions`, `Stmt.Mentions` — what holds of all variables that are mentioned.
* `Stmt.Apart` — programs in which no function mentions a local of a function around it.
-/

namespace Lox

namespace Expr

mutual

/-- All variables that an expression mentions have a property. -/
def Mentions (p : String → Prop) : Expr → Prop
  | .literal _ => True
  | .variable name => p name
  | .assign name value => p name ∧ value.Mentions p
  | .unary _ operand => operand.Mentions p
  | .binary _ left right => left.Mentions p ∧ right.Mentions p
  | .both left right => left.Mentions p ∧ right.Mentions p
  | .either left right => left.Mentions p ∧ right.Mentions p
  | .call callee arguments => callee.Mentions p ∧ MentionsAll p arguments

/-- All variables that some expressions mention have a property. -/
def MentionsAll (p : String → Prop) : List Expr → Prop
  | [] => True
  | e :: others => e.Mentions p ∧ MentionsAll p others

end

end Expr

namespace Stmt

/-- The local that a statement adds to its scope. -/
def scope (isLocal : Bool) : Stmt → List String
  | .variable name _ | .function name _ _ => if isLocal then [name] else []
  | _ => []

mutual

/-- All variables that a statement mentions have a property, which may depend on the locals in
scope: those of the function that mentions the variable, newest first, and those of the functions
around it. The flag tells whether declarations are local. -/
def Mentions (p : (own around : List String) → String → Prop) (isLocal : Bool)
    (own around : List String) : Stmt → Prop
  | .expression e => e.Mentions (p own around)
  | .print e => e.Mentions (p own around)
  | .giveBack e => e.Mentions (p own around)
  | .variable _ initial => initial.Mentions (p own around)
  | .function name parameters body =>
    MentionsAll p true parameters.reverse
      ((if isLocal then [name] else []) ++ own ++ around) body
  | .block body => MentionsAll p true own around body
  | .choice condition yes no => condition.Mentions (p own around) ∧
    yes.Mentions p isLocal own around ∧ no.Mentions p isLocal own around
  | .loop condition increment body => (∀ e ∈ condition, e.Mentions (p own around)) ∧
    (∀ e ∈ increment, e.Mentions (p own around)) ∧ body.Mentions p isLocal own around

/-- All variables that statements one after another mention have a property. -/
def MentionsAll (p : (own around : List String) → String → Prop) (isLocal : Bool)
    (own around : List String) : List Stmt → Prop
  | [] => True
  | s :: others => s.Mentions p isLocal own around ∧
    MentionsAll p isLocal (s.scope isLocal ++ own) around others

end

/-- No function of a program mentions a local variable of a function around it: a variable that is
mentioned is a local of the function itself, or no function around has a local of its name. -/
def Apart (program : List Stmt) : Prop :=
  MentionsAll (fun own around name => name ∈ own ∨ name ∉ around) false [] [] program

end Stmt

/-! ### Properties of all variables -/

namespace Expr

mutual

/-- What follows from two properties of all variables. -/
theorem Mentions.and {p q s : String → Prop} (imp : ∀ name, p name → q name → s name) :
    {e : Expr} → e.Mentions p → e.Mentions q → e.Mentions s
  | .literal _, _, _ => by simp only [Mentions]
  | .variable _, hp, hq => by
      simp only [Mentions] at hp hq ⊢
      exact imp _ hp hq
  | .assign _ _, hp, hq => by
      simp only [Mentions] at hp hq ⊢
      exact ⟨imp _ hp.1 hq.1, hp.2.and imp hq.2⟩
  | .unary _ _, hp, hq => by
      simp only [Mentions] at hp hq ⊢
      exact hp.and imp hq
  | .binary _ _ _, hp, hq | .both _ _, hp, hq | .either _ _, hp, hq => by
      simp only [Mentions] at hp hq ⊢
      exact ⟨hp.1.and imp hq.1, hp.2.and imp hq.2⟩
  | .call _ _, hp, hq => by
      simp only [Mentions] at hp hq ⊢
      exact ⟨hp.1.and imp hq.1, MentionsAll.and imp hp.2 hq.2⟩

/-- What follows from two properties of all variables. -/
theorem MentionsAll.and {p q s : String → Prop} (imp : ∀ name, p name → q name → s name) :
    {es : List Expr} → MentionsAll p es → MentionsAll q es → MentionsAll s es
  | [], _, _ => by simp only [MentionsAll]
  | _ :: _, hp, hq => by
      simp only [MentionsAll] at hp hq ⊢
      exact ⟨hp.1.and imp hq.1, MentionsAll.and imp hp.2 hq.2⟩

end

end Expr

namespace Stmt

mutual

/-- What follows from two properties of all variables. -/
theorem Mentions.and {p q s : (own around : List String) → String → Prop} {isLocal : Bool}
    {own around : List String}
    (imp : ∀ own around name, p own around name → q own around name → s own around name) :
    {t : Stmt} → t.Mentions p isLocal own around → t.Mentions q isLocal own around →
      t.Mentions s isLocal own around
  | .expression _, hp, hq | .print _, hp, hq | .giveBack _, hp, hq | .variable _ _, hp, hq => by
      simp only [Mentions] at hp hq ⊢
      exact hp.and (imp own around) hq
  | .function _ _ _, hp, hq | .block _, hp, hq => by
      simp only [Mentions] at hp hq ⊢
      exact MentionsAll.and imp hp hq
  | .choice _ _ _, hp, hq => by
      simp only [Mentions] at hp hq ⊢
      exact ⟨hp.1.and (imp own around) hq.1, hp.2.1.and imp hq.2.1, hp.2.2.and imp hq.2.2⟩
  | .loop _ _ _, hp, hq => by
      simp only [Mentions] at hp hq ⊢
      exact ⟨fun e he => (hp.1 e he).and (imp own around) (hq.1 e he),
        fun e he => (hp.2.1 e he).and (imp own around) (hq.2.1 e he), hp.2.2.and imp hq.2.2⟩

/-- What follows from two properties of all variables. -/
theorem MentionsAll.and {p q s : (own around : List String) → String → Prop} {isLocal : Bool}
    {own around : List String}
    (imp : ∀ own around name, p own around name → q own around name → s own around name) :
    {ts : List Stmt} → MentionsAll p isLocal own around ts → MentionsAll q isLocal own around ts →
      MentionsAll s isLocal own around ts
  | [], _, _ => by simp only [MentionsAll]
  | _ :: _, hp, hq => by
      simp only [MentionsAll] at hp hq ⊢
      exact ⟨hp.1.and imp hq.1, MentionsAll.and imp hp.2 hq.2⟩

end

end Stmt

end Lox
