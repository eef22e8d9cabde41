import Lox.Proofs.Code.Encoding

/-!
# Typed code

A *listing* is code split into instructions, where each instruction carries the *profile* of
the stack in front of it: for every slot of the call, the newest first, whether an open cell
may stand for the slot. The length of a profile is the height of the stack.

A listing is typed when every instruction finds on the stack what it needs, and when every
instruction that may be executed next carries a profile that the stack then has. Profiles may
become weaker on the way: where no open cell stands for a slot, one may. Nothing else may
happen to a profile between two instructions, so all ways to an instruction agree on the
height of the stack.

## Main definitions

* `Listing`, `Listing.At` — code with profiles.
* `Fits` — an instruction at its place in a listing.
* `Piece`, `Segment` — typed code at any place, with and without jumps that leave it.
* `Template.Listed`, `Constant.Typed` — typed functions.

## Main results

* `Piece.append`, `Piece.mono` — typed code is put together from its parts.
-/

namespace Lox

/-! ### Profiles -/

/-- For each stack slot of a call, the newest first, whether an open cell may stand for it. -/
abbrev Profile := List Bool

namespace Profile

/-- Whether an open cell may stand for a slot. -/
def shares (slot : Nat) : Profile → Bool
  | [] => false
  | b :: older => if older.length = slot then b else shares slot older

/-- A profile that allows at least the same open cells. -/
abbrev Weakens (P Q : Profile) : Prop := List.Forall₂ (fun a b : Bool => a = true → b = true) P Q

variable {P Q R : Profile} {slot : Nat}

/-- Every profile allows what it allows. -/
theorem Weakens.refl (P : Profile) : P.Weakens P := List.forall₂_same.mpr fun _ _ => id

/-- Weaker than weaker is weaker. -/
theorem Weakens.trans (first : P.Weakens Q) (second : Q.Weakens R) : P.Weakens R := by
  induction first generalizing R with
  | nil => exact second
  | cons hb _ ih =>
      obtain ⟨c, R, hc, hR, rfl⟩ := List.forall₂_cons_left_iff.mp second
      exact .cons (hc ∘ hb) (ih hR)

/-- What a profile allows, a weaker one allows. -/
theorem Weakens.shares (weakens : P.Weakens Q) (shares : P.shares slot = true) :
    Q.shares slot = true := by
  induction weakens with
  | nil => exact shares
  | cons hb hrest ih =>
      simp only [Profile.shares, ← hrest.length_eq] at shares ⊢
      split at shares
      · rename_i hslot
        rw [if_pos hslot]
        exact hb shares
      · rename_i hslot
        rw [if_neg hslot]
        exact ih shares

/-- The slots under two weakening profiles may be the same. -/
theorem Weakens.append (weakens : P.Weakens Q) (below : Profile) :
    (P ++ below).Weakens (Q ++ below) :=
  List.rel_append weakens (Weakens.refl below)

/-- A shared slot is a slot. -/
theorem lt_of_shares (shares : P.shares slot = true) : slot < P.length := by
  induction P with
  | nil => cases shares
  | cons b P ih =>
      unfold Profile.shares at shares
      split at shares
      · rename_i heq
        rw [List.length_cons]
        omega
      · exact Nat.lt_succ_of_lt (ih shares)

/-- A slot below is shared no matter what is on top. -/
theorem shares_cons_of_lt {b : Bool} (lt : slot < P.length) :
    Profile.shares slot (b :: P) = P.shares slot := by
  rw [Profile.shares, if_neg (by omega)]

/-- The slot on top is not shared. -/
theorem shares_of_shares_false (shares : Profile.shares slot (false :: P) = true) :
    P.shares slot = true := by
  rw [Profile.shares] at shares
  split at shares
  · cases shares
  · exact shares

/-- Slots further below are shared no matter what is on top. -/
theorem shares_append_of_lt {below : Profile} (lt : slot < below.length) :
    Profile.shares slot (P ++ below) = below.shares slot := by
  induction P with
  | nil => rfl
  | cons b P ih =>
      rw [List.cons_append, shares_cons_of_lt (by rw [List.length_append]; omega), ih]

/-- The profile of the locals of a function. -/
def ofVariables (vs : List Variable) : Profile := vs.map Variable.captured

/-- Where there are locals, the profile is not empty. -/
theorem ofVariables_ne_nil {vs : List Variable} (seated : vs ≠ []) : ofVariables vs ≠ [] := by
  simpa [ofVariables] using seated

/-- Whether a slot is shared is a matter of the profile. -/
theorem shares_ofVariables (slot : Nat) (vs : List Variable) :
    (ofVariables vs).shares slot = isShared slot vs := by
  induction vs with
  | nil => rfl
  | cons v vs ih =>
      rw [ofVariables] at ih
      simp only [ofVariables, List.map_cons, Profile.shares, isShared, List.length_map, ih]

end Profile

/-! ### Listings -/

/-- An instruction and the profile in front of it. -/
structure Line where
  /-- The profile of the stack in front of the instruction. -/
  profile : Profile
  /-- The bytes of the instruction. -/
  bytes : List UInt8

/-- Code split into instructions with profiles. -/
abbrev Listing := List Line

namespace Listing

/-- The bytes of a listing. -/
def code (L : Listing) : List UInt8 := L.flatMap Line.bytes

/-- How many bytes a listing has. -/
def size (L : Listing) : Nat := L.code.length

@[simp]
theorem code_nil : code [] = [] := rfl

@[simp]
theorem code_cons (l : Line) (L : Listing) : code (l :: L) = l.bytes ++ code L := by
  simp [code]

@[simp]
theorem code_append (L M : Listing) : code (L ++ M) = code L ++ code M := by
  simp [code]

@[simp]
theorem size_nil : size [] = 0 := rfl

@[simp]
theorem size_cons (l : Line) (L : Listing) : size (l :: L) = l.bytes.length + size L := by
  simp [size]

@[simp]
theorem size_append (L M : Listing) : size (L ++ M) = size L + size M := by
  simp [size]

/-- The first instruction of a listing may be executed with a given profile. -/
def Enters : Listing → Profile → Prop
  | [], _ => False
  | l :: _, P => P.Weakens l.profile

/-- The instruction at an offset may be executed with a given profile. -/
def At (L : Listing) (offset : Nat) (P : Profile) : Prop :=
  ∃ pre post, L = pre ++ post ∧ offset = size pre ∧ Enters post P

variable {L M : Listing} {P Q : Profile}

/-- A listing may be entered with any stronger profile. -/
theorem Enters.weaken (enters : Enters L Q) (weakens : P.Weakens Q) : Enters L P := by
  cases L with
  | nil => exact enters
  | cons l L => exact weakens.trans enters

end Listing

/-! ### Instructions -/

namespace OpCode

/-- The operations that push a value of their own. -/
def isLiteral : OpCode → Bool
  | .pushNil | .pushTrue | .pushFalse => true
  | _ => false

/-- The operations that take a value off the stack for good. -/
def isDrop : OpCode → Bool
  | .pop | .print => true
  | _ => false

/-- The operations that replace the value on top of the stack. -/
def isUnary : OpCode → Bool
  | .not | .negate => true
  | _ => false

/-- The operations that replace the two values on top of the stack by one. -/
def isBinary : OpCode → Bool
  | .equal | .greater | .less | .add | .subtract | .multiply | .divide => true
  | _ => false

end OpCode

/-- A captured variable can be reached: its slot may have an open cell, or the function itself
has captured it. -/
def Capture.Reachable (c : Capture) (P : Profile) (upvalues : Nat) : Prop :=
  if c.isLocal then P.shares c.index.toNat = true else c.index.toNat < upvalues

/-- An instruction at an offset of a listing, in a function with given constants and a given
number of captured variables: what it needs is on the stack, above the slot of the function itself,
and the instructions that may be executed next have the profiles that it leaves. -/
inductive Fits (constants : List Constant) (upvalues : Nat) (L : Listing) (offset : Nat) :
    Profile → List UInt8 → Prop
  | literal {op : OpCode} {P : Profile} : op.isLiteral = true → L.At (offset + 1) (false :: P) →
      Fits constants upvalues L offset P op.plain
  | constant {i : UInt8} {k : Constant} {P : Profile} : constants[i.toNat]? = some k →
      k.isLiteral = true → L.At (offset + 2) (false :: P) →
        Fits constants upvalues L offset P (OpCode.constant.short i)
  | drop {op : OpCode} {P : Profile} : op.isDrop = true → P ≠ [] → L.At (offset + 1) P →
      Fits constants upvalues L offset (false :: P) op.plain
  | closeUpvalue {b : Bool} {P : Profile} : P ≠ [] → L.At (offset + 1) P →
      Fits constants upvalues L offset (b :: P) OpCode.closeUpvalue.plain
  | getLocal {i : UInt8} {P : Profile} : i.toNat < P.length → L.At (offset + 2) (false :: P) →
      Fits constants upvalues L offset P (OpCode.getLocal.short i)
  | setLocal {i : UInt8} {P : Profile} : i.toNat < P.length → L.At (offset + 2) (false :: P) →
      Fits constants upvalues L offset (false :: P) (OpCode.setLocal.short i)
  | getGlobal {i : UInt8} {name : String} {P : Profile} :
      constants[i.toNat]? = some (.text name) → L.At (offset + 2) (false :: P) →
        Fits constants upvalues L offset P (OpCode.getGlobal.short i)
  | defineGlobal {i : UInt8} {name : String} {P : Profile} :
      constants[i.toNat]? = some (.text name) → P ≠ [] → L.At (offset + 2) P →
        Fits constants upvalues L offset (false :: P) (OpCode.defineGlobal.short i)
  | setGlobal {i : UInt8} {name : String} {P : Profile} :
      constants[i.toNat]? = some (.text name) → P ≠ [] → L.At (offset + 2) (false :: P) →
        Fits constants upvalues L offset (false :: P) (OpCode.setGlobal.short i)
  | getUpvalue {i : UInt8} {P : Profile} : i.toNat < upvalues →
      L.At (offset + 2) (false :: P) →
        Fits constants upvalues L offset P (OpCode.getUpvalue.short i)
  | setUpvalue {i : UInt8} {P : Profile} : i.toNat < upvalues → P ≠ [] →
      L.At (offset + 2) (false :: P) →
        Fits constants upvalues L offset (false :: P) (OpCode.setUpvalue.short i)
  | unary {op : OpCode} {P : Profile} : op.isUnary = true → P ≠ [] →
      L.At (offset + 1) (false :: P) → Fits constants upvalues L offset (false :: P) op.plain
  | binary {op : OpCode} {P : Profile} : op.isBinary = true → P ≠ [] →
      L.At (offset + 1) (false :: P) → Fits constants upvalues L offset
        (false :: false :: P) op.plain
  | jump {distance : Nat} {P : Profile} : distance ≤ Compiler.maxJump →
      L.At (offset + 3 + distance) P →
        Fits constants upvalues L offset P (OpCode.jump.long distance)
  | jumpIfFalse {distance : Nat} {P : Profile} : distance ≤ Compiler.maxJump → P ≠ [] →
      L.At (offset + 3) (false :: P) → L.At (offset + 3 + distance) (false :: P) →
        Fits constants upvalues L offset (false :: P) (OpCode.jumpIfFalse.long distance)
  | loop {distance : Nat} {P : Profile} : distance ≤ Compiler.maxJump →
      distance ≤ offset + 3 → L.At (offset + 3 - distance) P →
        Fits constants upvalues L offset P (OpCode.loop.long distance)
  | call {count : UInt8} {P : Profile} : P ≠ [] → L.At (offset + 2) (false :: P) →
      Fits constants upvalues L offset (List.replicate (count.toNat + 1) false ++ P)
        (OpCode.call.short count)
  | closure {i : UInt8} {t : Template} {inner : List Constant} {captures : List Capture}
      {b : Bool} {P : Profile} : constants[i.toNat]? = some (.function t inner) →
      captures.length = t.upvalueCount → (∀ c ∈ captures, c.Reachable (b :: P) upvalues) →
      L.At (offset + 2 + 2 * captures.length) (b :: P) →
        Fits constants upvalues L offset P
          (OpCode.closure.short i ++ captures.flatMap Capture.bytes)
  | giveBack {P : Profile} : P ≠ [] →
      Fits constants upvalues L offset (false :: P) OpCode.giveBack.plain

/-! ### Pieces of code -/

/-- Code that leads from one profile to another wherever it stands. Its jumps may lead out of
it if the listing around it fulfils a need, and something may be known of its inside. -/
def Piece (constants : List Constant) (upvalues : Nat) (bytes : List UInt8) (P Q : Profile)
    (needs gives : Listing → Nat → Prop) : Prop :=
  ∃ L : Listing, L.code = bytes ∧ ∀ pre post : Listing, post.Enters Q →
    (L ++ post).Enters P ∧ gives (pre ++ (L ++ post)) pre.size ∧
      (needs (pre ++ (L ++ post)) pre.size → ∀ first l rest, L = first ++ l :: rest →
        Fits constants upvalues (pre ++ (L ++ post)) (pre ++ first).size l.profile l.bytes)

/-- Code that leads from one profile to another wherever it stands, and that no jump leaves. -/
abbrev Segment (constants : List Constant) (upvalues : Nat) (bytes : List UInt8)
    (P Q : Profile) : Prop :=
  Piece constants upvalues bytes P Q (fun _ _ => True) (fun _ _ => True)

section

variable {constants : List Constant} {upvalues : Nat} {bs ds : List UInt8} {P Q R : Profile}
  {needs gives needs' gives' : Listing → Nat → Prop}

/-- No code leads from a profile to every weaker one. -/
theorem Segment.nil (weakens : P.Weakens Q) : Segment constants upvalues [] P Q :=
  ⟨[], rfl, fun _ _ enters => ⟨enters.weaken weakens, trivial, fun _ first l rest h =>
    by simp at h⟩⟩

/-- A single instruction. -/
theorem Piece.line
    (fits : ∀ (L : Listing) (offset : Nat), needs L offset → L.At (offset + bs.length) Q →
      Fits constants upvalues L offset P bs) :
    Piece constants upvalues bs P Q needs fun _ _ => True := by
  refine ⟨[⟨P, bs⟩], by simp, fun pre post enters => ⟨.refl _, trivial, ?_⟩⟩
  intro hneeds first l rest hsplit
  obtain ⟨rfl, hrest⟩ : first = [] ∧ l :: rest = [⟨P, bs⟩] := by
    cases first with
    | nil => exact ⟨rfl, hsplit.symm⟩
    | cons l' first => simp at hsplit
  obtain ⟨rfl, rfl⟩ := List.cons_eq_cons.mp hrest
  rw [List.append_nil]
  exact fits _ _ hneeds ⟨pre ++ [⟨P, bs⟩], post, by simp, by simp [Listing.size], enters⟩

/-- More may be needed, and less may be given. -/
theorem Piece.mono (piece : Piece constants upvalues bs P Q needs gives)
    (meets : ∀ L offset, gives L offset → needs' L offset → needs L offset)
    (shows : ∀ L offset, gives L offset → gives' L offset) :
    Piece constants upvalues bs P Q needs' gives' := by
  obtain ⟨L, hcode, hpiece⟩ := piece
  refine ⟨L, hcode, fun pre post enters => ?_⟩
  obtain ⟨henters, hgives, hfits⟩ := hpiece pre post enters
  exact ⟨henters, shows _ _ hgives, fun hneeds => hfits (meets _ _ hgives hneeds)⟩

/-- The profiles at both ends of a piece are there. -/
theorem Piece.ends (piece : Piece constants upvalues bs P Q needs gives) :
    Piece constants upvalues bs P Q needs fun L offset =>
      gives L offset ∧ L.At offset P ∧ L.At (offset + bs.length) Q := by
  obtain ⟨L, rfl, hpiece⟩ := piece
  refine ⟨L, rfl, fun pre post enters => ?_⟩
  obtain ⟨henters, hgives, hfits⟩ := hpiece pre post enters
  exact ⟨henters, ⟨hgives, ⟨pre, _, rfl, rfl, henters⟩,
    ⟨pre ++ L, post, by simp, by simp [Listing.size], enters⟩⟩, hfits⟩

/-- One piece behind another. -/
theorem Piece.append (first : Piece constants upvalues bs P Q needs gives)
    (second : Piece constants upvalues ds Q R needs' gives') :
    Piece constants upvalues (bs ++ ds) P R
      (fun L offset => needs L offset ∧ needs' L (offset + bs.length))
      (fun L offset => gives L offset ∧ gives' L (offset + bs.length)) := by
  obtain ⟨L, rfl, hfirst⟩ := first
  obtain ⟨M, rfl, hsecond⟩ := second
  refine ⟨L ++ M, by simp, fun pre post enters => ?_⟩
  obtain ⟨henters', hgives', hfits'⟩ := hsecond (pre ++ L) post enters
  obtain ⟨henters, hgives, hfits⟩ := hfirst pre (M ++ post) henters'
  simp only [List.append_assoc, Listing.size_append] at hgives' hfits' henters ⊢
  refine ⟨henters, ⟨hgives, hgives'⟩, fun ⟨hneeds, hneeds'⟩ before l after hsplit => ?_⟩
  rcases List.append_eq_append_iff.mp hsplit with ⟨more, rfl, hmore⟩ | ⟨more, hmore, hrest⟩
  · have := hfits' hneeds' more l after hmore
    simpa [Nat.add_assoc] using this
  · cases more with
    | nil =>
        rw [List.append_nil] at hmore
        subst hmore
        have := hfits' hneeds' [] l after hrest.symm
        simpa [Listing.size] using this
    | cons l' more =>
        obtain ⟨rfl, rfl⟩ := List.cons_eq_cons.mp hrest
        have := hfits hneeds before l more hmore
        simpa using this

/-- One segment behind another. -/
theorem Segment.append (first : Segment constants upvalues bs P Q)
    (second : Segment constants upvalues ds Q R) : Segment constants upvalues (bs ++ ds) P R :=
  (Piece.append first second).mono (fun _ _ _ _ => ⟨trivial, trivial⟩) fun _ _ _ => trivial

/-- A single instruction that has all that it needs. -/
theorem Segment.line
    (fits : ∀ (L : Listing) (offset : Nat), L.At (offset + bs.length) Q →
      Fits constants upvalues L offset P bs) : Segment constants upvalues bs P Q :=
  Piece.line fun L offset _ => fits L offset

end

/-! ### Functions -/

/-- The instructions of the implicit return, where the stack has a given profile. -/
def Listing.ending (P : Profile) : Listing :=
  [⟨P, OpCode.pushNil.plain⟩, ⟨false :: P, OpCode.giveBack.plain⟩]

/-- A listing is typed when all its instructions fit. -/
def Listing.Typed (L : Listing) (constants : List Constant) (upvalues : Nat) : Prop :=
  ∀ (first : Listing) (l : Line) (rest : Listing), L = first ++ l :: rest →
    Fits constants upvalues L first.size l.profile l.bytes

/-- A listing that fits if just one more instruction stands behind it. No jump leads further. -/
def Listing.Closed (L : Listing) (P : Profile) (constants : List Constant) (upvalues : Nat) :
    Prop :=
  ∀ (first : Listing) (l : Line) (rest : Listing), L = first ++ l :: rest →
    Fits constants upvalues (L ++ [⟨P, OpCode.pushNil.plain⟩]) first.size l.profile l.bytes

/-- A listing with the implicit return at its end, which is not left by a jump into the middle of
it. Where a script returns, nothing is left but the slot of the script itself. -/
def Listing.Ends (L : Listing) (constants : List Constant) (upvalues : Nat)
    (script : Prop) : Prop :=
  ∃ (body : Listing) (P : Profile), L = body ++ Listing.ending P ∧
    body.Closed P constants upvalues ∧ (script → P.length = 1)

/-- The code of a function is a typed listing that ends with the implicit return. -/
structure Template.Listed (t : Template) (constants : List Constant) : Prop where
  lines : t.lines.length = t.code.length
  room : t.upvalueCount ≤ Draft.maxCaptures
  listing : ∃ (L : Listing) (own : Profile), L.Ends constants t.upvalueCount (t.name = none) ∧
    L.code = t.code ∧ own.length = t.arity + 1 ∧ L.Enters own ∧ L.Typed constants t.upvalueCount

/-- A constant that is a typed function if it is a function, and so are the functions among its
own constants. -/
inductive Constant.Typed : Constant → Prop
  | number (x : Float) : Typed (.number x)
  | text (s : String) : Typed (.text s)
  | function {t : Template} {constants : List Constant} : t.Listed constants →
      (∀ k ∈ constants, Typed k) → Typed (.function t constants)

/-- A function is typed if its body is a segment. -/
theorem Template.listed_of_segment {t : Template} {constants : List Constant}
    {bs : List UInt8} {own P : Profile} (lines : t.lines.length = t.code.length)
    (room : t.upvalueCount ≤ Draft.maxCaptures)
    (code : t.code = bs ++ OpCode.pushNil.plain ++ OpCode.giveBack.plain)
    (arity : own.length = t.arity + 1) (deep : P ≠ []) (level : t.name = none → P.length = 1)
    (body : Segment constants t.upvalueCount bs own P) :
    t.Listed constants := by
  obtain ⟨L, rfl, hbody⟩ := body
  obtain ⟨henters, -, hfits⟩ := hbody [] (Listing.ending P) (.refl P)
  have hclosed : L.Closed P constants t.upvalueCount := fun first l rest hsplit => by
    have hfits := (hbody [] [⟨P, OpCode.pushNil.plain⟩] (.refl P)).2.2 trivial first l rest hsplit
    exact hfits
  refine ⟨lines, room, L ++ Listing.ending P, own, ⟨L, P, rfl, hclosed, level⟩, ?_, arity, henters,
    ?_⟩
  · simp [code, Listing.ending]
  · have hnil : Fits constants t.upvalueCount (L ++ Listing.ending P) L.size P
        OpCode.pushNil.plain :=
      .literal rfl ⟨L ++ [⟨P, OpCode.pushNil.plain⟩], [⟨false :: P, OpCode.giveBack.plain⟩],
        by simp [Listing.ending], by simp [Listing.size], .refl _⟩
    intro first l rest hsplit
    rcases List.append_eq_append_iff.mp hsplit with ⟨more, rfl, hmore⟩ | ⟨more, rfl, hmore⟩
    · cases more with
      | nil =>
          obtain ⟨rfl, -⟩ := List.cons_eq_cons.mp hmore
          rw [List.append_nil]
          exact hnil
      | cons l' more =>
          obtain ⟨rfl, hrest⟩ := List.cons_eq_cons.mp hmore
          cases more with
          | nil =>
              obtain ⟨rfl, -⟩ := List.cons_eq_cons.mp hrest
              exact .giveBack deep
          | cons l'' more => simp at hrest
    · cases more with
      | nil =>
          obtain ⟨rfl, -⟩ := List.cons_eq_cons.mp hmore
          rw [List.append_nil] at hnil
          rw [List.append_nil]
          exact hnil
      | cons l' more =>
          obtain ⟨rfl, rfl⟩ := List.cons_eq_cons.mp hmore
          exact hfits trivial first l more rfl

end Lox
