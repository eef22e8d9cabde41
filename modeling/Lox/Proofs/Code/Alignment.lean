import Lox.Proofs.Code.Lines
import Lox.Proofs.Code.Reading
import Lox.Proofs.Code.Relocation
import Lox.Proofs.Code.WellTyped

/-!
# Typed code in two places

The typing of code and its outline cut it into the same instructions: an instruction takes as many
bytes as its operation says, and a closure as many as its function captures variables. So an
instruction of a typed listing stands in the other place too, at the same distance from the
beginning.

## Main definitions

* `OpCode.depth` — how many values on top of the stack an instruction looks at.
* `Listing.Bounded` — typed code whose jumps stay inside.

## Main results

* `Fits.grounds` — what an instruction that fits is sure of.
* `Laid.line` — the counterpart of an instruction of a typed listing.
* `Template.Lined.uniform` — the line of an instruction of a typed listing.
-/

namespace Lox

namespace OpCode

/-- How many values on top of the stack an instruction looks at. -/
def depth : OpCode → (operand : Nat) → Nat
  | .pop, _ | .print, _ | .closeUpvalue, _ | .setLocal, _ | .defineGlobal, _ | .setGlobal, _
  | .setUpvalue, _ | .not, _ | .negate, _ | .jumpIfFalse, _ | .giveBack, _ => 1
  | .equal, _ | .greater, _ | .less, _ | .add, _ | .subtract, _ | .multiply, _ | .divide, _ => 2
  | .call, count => count + 1
  | _, _ => 0

/-- The operations that may jump ahead. -/
def isForward : OpCode → Bool
  | .jump | .jumpIfFalse => true
  | _ => false

/-- Different operations have different bytes. -/
theorem toByte_inj {op op' : OpCode} (same : op.toByte = op'.toByte) : op = op' :=
  Option.some.inj ((ofByte?_toByte op).symm.trans (same ▸ ofByte?_toByte op'))

end OpCode

/-! ### Instructions that fit -/

variable {constants : List Constant} {upvalues offset operand shift : Nat} {L N : Listing}
  {P Q : Profile} {bs ds code code' : List UInt8} {op op' : OpCode} {outline : Outline}

/-- An instruction describes as many captured variables as its function has. -/
def Describes (constants : List Constant) (op : OpCode) (operand : Nat) (bs : List UInt8) : Prop :=
  op = .closure → ∃ (t : Template) (inner : List Constant) (captures : List Capture),
    constants[operand]? = some (.function t inner) ∧ captures.length = t.upvalueCount ∧
      bs.drop 2 = captures.flatMap Capture.bytes

/-- What an instruction that fits is sure of: the values that it looks at are above the slot of the
function itself, a jump ahead leads to an instruction, and a closure tells how its variables are
captured. -/
theorem Fits.grounds (fits : Fits constants upvalues L offset P bs) :
    ∃ op operand, OpCode.Form op operand bs ∧ op.depth operand ≤ P.length - 1 ∧
      (op.isForward = true → ∃ Q, L.At (offset + 3 + operand) Q) ∧
      Describes constants op operand bs := by
  have hpos : ∀ {P : Profile}, P ≠ [] → 0 < P.length := List.length_pos_iff.mpr
  have hstays : ∀ {op : OpCode} {p : Prop}, op.isForward = false → op.isForward = true → p :=
    fun hno hyes => absurd (hno.symm.trans hyes) Bool.false_ne_true
  have hmakes : ∀ {op : OpCode} {p : Prop}, op ≠ .closure → op = .closure → p :=
    fun hne heq => absurd heq hne
  cases fits with
  | @literal op _ h =>
      cases op <;> cases h
      all_goals exact ⟨_, 0, .plain rfl (by decide), Nat.zero_le _, hstays rfl, hmakes (by decide)⟩
  | constant | getLocal | getGlobal | getUpvalue =>
      exact ⟨_, _, .short rfl (by decide), Nat.zero_le _, hstays rfl, hmakes (by decide)⟩
  | @drop op P h hdeep | @unary op P h hdeep =>
      cases op <;> cases h
      all_goals exact ⟨_, 0, .plain rfl (by decide), hpos hdeep, hstays rfl, hmakes (by decide)⟩
  | closeUpvalue hdeep | giveBack hdeep =>
      exact ⟨_, 0, .plain rfl (by decide), hpos hdeep, hstays rfl, hmakes (by decide)⟩
  | setLocal hlt =>
      exact ⟨_, _, .short rfl (by decide), Nat.zero_lt_of_lt hlt, hstays rfl, hmakes (by decide)⟩
  | defineGlobal _ hdeep | setGlobal _ hdeep | setUpvalue _ hdeep =>
      exact ⟨_, _, .short rfl (by decide), hpos hdeep, hstays rfl, hmakes (by decide)⟩
  | @binary op P h hdeep =>
      have : 2 ≤ (false :: false :: P).length - 1 := Nat.succ_le_succ (hpos hdeep)
      cases op <;> cases h
      all_goals exact ⟨_, 0, .plain rfl (by decide), this, hstays rfl, hmakes (by decide)⟩
  | jump h hnext =>
      exact ⟨_, _, .long rfl (by decide) h, Nat.zero_le _, fun _ => ⟨_, hnext⟩, hmakes (by decide)⟩
  | jumpIfFalse h hdeep _ hnext =>
      exact ⟨_, _, .long rfl (by decide) h, hpos hdeep, fun _ => ⟨_, hnext⟩, hmakes (by decide)⟩
  | loop h =>
      exact ⟨_, _, .long rfl (by decide) h, Nat.zero_le _, hstays rfl, hmakes (by decide)⟩
  | @call count P hdeep =>
      refine ⟨_, _, .short rfl (by decide), ?_, hstays rfl, hmakes (by decide)⟩
      have := hpos hdeep
      simp only [OpCode.depth, List.length_append, List.length_replicate]
      omega
  | @closure i t inner captures _ _ found count =>
      exact ⟨_, _, .closure captures, Nat.zero_le _, hstays rfl,
        fun _ => ⟨t, inner, captures, found, count, rfl⟩⟩

/-! ### The same instruction in a listing and in an outline -/

/-- How many bytes an instruction takes, unless it makes a closure. -/
theorem OpCode.Form.length_of_ne (form : OpCode.Form op operand bs) (ne : op ≠ .closure) :
    bs.length = 1 + op.width := by
  cases form with
  | plain h | short h | long h => rw [h]; rfl
  | closure => exact absurd rfl ne

theorem OpCode.Form.head (form : OpCode.Form op operand bs) : ∃ rest, bs = op.toByte :: rest := by
  cases form <;> exact ⟨_, rfl⟩

theorem Relocates.length_of_ne (relocates : Relocates shift constants op bs ds)
    (ne : op ≠ .closure) : bs.length = 1 + op.width := by
  cases relocates with
  | plain h | short h | long _ _ h => rw [h]; rfl
  | pooled h =>
      cases op with
      | closure => exact absurd rfl ne
      | constant | getGlobal | defineGlobal | setGlobal => rfl
      | _ => cases h
  | closure => exact absurd rfl ne

theorem Relocates.head (relocates : Relocates shift constants op bs ds) :
    ∃ rest, bs = op.toByte :: rest := by
  cases relocates <;> exact ⟨_, rfl⟩

/-- Two ways to read the first instruction of some code. -/
theorem Relocates.cut {xs ys : List UInt8} (relocates : Relocates shift constants op bs ds)
    (form : OpCode.Form op' operand xs) (describes : Describes constants op' operand xs)
    (same : xs ++ ys = bs ++ code) : op' = op ∧ xs = bs ∧ ys = code := by
  obtain ⟨rest, hbs⟩ := relocates.head
  obtain ⟨rest', hxs⟩ := form.head
  obtain rfl : op' = op := by
    rw [hbs, hxs, List.cons_append, List.cons_append] at same
    exact OpCode.toByte_inj (List.cons_eq_cons.mp same).1
  have hlength : xs.length = bs.length := by
    by_cases hclosure : op' = .closure
    · subst hclosure
      obtain ⟨t, inner, captures, hfound, hcount, hdrop⟩ := describes rfl
      cases form with
      | plain _ h | short _ h | long _ h => exact absurd rfl h
      | closure others =>
          cases relocates with
          | plain h => cases h
          | short h h' => cases h'
          | long _ _ h => cases h
          | pooled _ h => exact absurd rfl h
          | @closure i j t' inner' captures' hfound' hcount' =>
              have hbyte := (List.cons_eq_cons.mp (List.cons_eq_cons.mp same).2).1
              rw [hbyte, hfound'] at hfound
              cases hfound
              have hothers : (others.flatMap Capture.bytes).length = 2 * captures.length := by
                rw [← length_captures, ← hdrop]
                rfl
              rw [List.length_append, List.length_append, hothers, length_captures, hcount, hcount']
              rfl
    · rw [form.length_of_ne hclosure, relocates.length_of_ne hclosure]
  exact ⟨rfl, List.append_inj same hlength⟩

/-- An operand of one byte is that byte. -/
theorem OpCode.Form.operand_eq {i : UInt8} {rest : List UInt8}
    (form : OpCode.Form op operand (op.toByte :: i :: rest)) (width : op.width = 1) :
    operand = i.toNat := by
  generalize hbs : op.toByte :: i :: rest = bs at form
  cases form with
  | plain h => cases h.symm.trans width
  | long h => cases h.symm.trans width
  | short | closure => rw [(List.cons_eq_cons.mp (List.cons_eq_cons.mp hbs).2).1]

/-- The operations whose operand refers to a constant have an operand of one byte, and it is not a
stack slot. -/
theorem OpCode.width_of_isPooled (pooled : op.isPooled = true) :
    op.width = 1 ∧ op.isSlot = false := by
  cases op with
  | closure | constant | getGlobal | defineGlobal | setGlobal => exact ⟨rfl, rfl⟩
  | _ => cases pooled

/-- The operations without an operand of one byte refer to no constant and to no stack slot. -/
theorem OpCode.isPooled_of_width (width : op.width ≠ 1) :
    op.isPooled = false ∧ op.isSlot = false := by
  cases op <;> first | exact ⟨rfl, rfl⟩ | exact absurd rfl width

/-- An operand and its counterpart: an operand that refers to a constant is shifted, and any other
one is the same. No stack slot is that of the function itself, and captured variables are told by
the same bytes. -/
structure Shifted (shift : Nat) (constants : List Constant) (op : OpCode) (operand operand' : Nat)
    (bs ds : List UInt8) : Prop where
  form : OpCode.Form op operand' ds
  same : op.isPooled = false → operand' = operand
  pooled : op.isPooled = true → operand' = shift + operand
  slot : op.isSlot = true → operand ≠ 0
  captures : op = .closure → ∃ captures : List Capture, bs.drop 2 = captures.flatMap Capture.bytes ∧
    ds.drop 2 = captures.flatMap Capture.bytes ∧ (∀ c ∈ captures, c.Proper) ∧
    ∀ t inner, constants[operand]? = some (.function t inner) → captures.length = t.upvalueCount

/-- The counterpart of an instruction has the same form. -/
theorem Relocates.shifted (relocates : Relocates shift constants op bs ds)
    (form : OpCode.Form op operand bs) :
    ∃ operand', Shifted shift constants op operand operand' bs ds := by
  have hno : ∀ {p : Prop} {b : Bool}, b = false → b = true → p :=
    fun hfalse htrue => absurd (hfalse.symm.trans htrue) Bool.false_ne_true
  -- an instruction whose operand is no single byte is the same in both places
  have hsame : bs = ds → op.width ≠ 1 → ∃ operand',
    Shifted shift constants op operand operand' bs ds := by
    rintro rfl hwidth
    obtain ⟨hpooled, hslot⟩ := OpCode.isPooled_of_width hwidth
    refine ⟨operand, form, fun _ => rfl, hno hpooled, hno hslot, ?_⟩
    rintro rfl
    exact absurd rfl hwidth
  cases relocates with
  | plain h => exact hsame rfl (by rw [h]; decide)
  | long high low h => exact hsame rfl (by rw [h]; decide)
  | @short _ i h hpooled hslot =>
      obtain rfl := form.operand_eq h
      refine ⟨i.toNat, form, fun _ => rfl, hno hpooled, fun his hzero => ?_, ?_⟩
      · exact hslot his (UInt8.toNat_inj.mp hzero)
      · rintro rfl
        cases hpooled
  | @pooled _ i j h hne hlt hj =>
      obtain ⟨hwidth, hslot⟩ := OpCode.width_of_isPooled h
      obtain rfl := form.operand_eq hwidth
      exact ⟨j.toNat, .short hwidth hne, fun hpooled => hno hpooled h, fun _ => hj, hno hslot,
        fun heq => absurd heq hne⟩
  | @closure i j t inner captures hfound hcount hproper hj =>
      obtain rfl := form.operand_eq rfl
      refine ⟨j.toNat, .closure captures, fun hpooled => hno hpooled rfl, fun _ => hj, hno rfl,
        fun _ => ⟨captures, rfl, rfl, hproper, fun t' inner' hfound' => ?_⟩⟩
      cases hfound.symm.trans hfound'
      exact hcount

/-- An instruction of a listing, and its counterpart. -/
theorem Laid.line (laid : Laid shift constants outline code code') (bytes : L.code = code)
    (known : ∀ l ∈ L, ∃ op operand, OpCode.Form op operand l.bytes ∧
      Describes constants op operand l.bytes) {first rest : Listing} {l : Line}
    (split : L = first ++ l :: rest) :
    ∃ op ds before after front' rest', outline = before ++ (op, l.bytes.length) :: after ∧
      Outline.size before = first.size ∧ Relocates shift constants op l.bytes ds ∧
      code' = front' ++ (ds ++ rest') ∧ front'.length = first.size := by
  induction laid generalizing L first with
  | nil =>
      obtain ⟨op, operand, form, -⟩ := known l (by simp [split])
      have := form.length_pos
      rw [split, Listing.code_append, Listing.code_cons] at bytes
      simp only [List.append_eq_nil_iff] at bytes
      simp [bytes.2.1] at this
  | @cons op bs ds code code' outline hfirst _ ih =>
      cases L with
      | nil => cases first <;> cases split
      | cons x L =>
          obtain ⟨op', operand, form, describes⟩ := known x (List.mem_cons_self ..)
          rw [Listing.code_cons] at bytes
          obtain ⟨rfl, rfl, hcode⟩ := hfirst.cut form describes bytes
          cases first with
          | nil =>
              obtain ⟨rfl, -⟩ := List.cons_eq_cons.mp split
              exact ⟨_, ds, [], outline, [], code', rfl, rfl, hfirst, rfl, rfl⟩
          | cons y first =>
              obtain ⟨rfl, hsplit⟩ := List.cons_eq_cons.mp split
              obtain ⟨op, es, before, after, front', rest', rfl, hsize, hrelocates, rfl, hlength⟩ :=
                ih hcode (fun l hl => known l (List.mem_cons_of_mem _ hl)) hsplit
              refine ⟨op, es, _ :: before, after, ds ++ front', rest', rfl, ?_, hrelocates,
                (List.append_assoc ..).symm, ?_⟩
              · rw [Outline.size_cons, hsize, Listing.size_cons]
              · rw [List.length_append, hlength, hfirst.length_eq, Listing.size_cons]

/-- An instruction that fits has a form. -/
theorem Fits.known (fits : Fits constants upvalues L offset P bs) :
    ∃ op operand, OpCode.Form op operand bs ∧ Describes constants op operand bs := by
  obtain ⟨op, operand, hform, -, -, hdescribes⟩ := fits.grounds
  exact ⟨op, operand, hform, hdescribes⟩

/-- All bytes of an instruction of a typed listing have the same line. -/
theorem Template.Lined.uniform {t : Template} (lined : t.Lined constants) (code : L.code = t.code)
    (typed : L.Typed constants upvalues) {first rest : Listing} {l : Line}
    (split : L = first ++ l :: rest) :
    ∃ line, ∀ k < l.bytes.length, t.lines[first.size + k]? = some line := by
  obtain ⟨outline, hlaid, hlines⟩ := lined
  have hknown : ∀ l ∈ L, ∃ op operand, OpCode.Form op operand l.bytes ∧
      Describes constants op operand l.bytes := fun l hl => by
    obtain ⟨first, rest, hsplit⟩ := List.append_of_mem hl
    exact (typed first l rest hsplit).known
  obtain ⟨op, -, before, after, -, -, rfl, hsize, -⟩ := hlaid.line code hknown split
  rw [← hsize]
  exact hlines.uniform

/-! ### Bounded code -/

/-- A listing whose instructions fit, and whose jumps lead no further than its end. -/
def Listing.Bounded (L : Listing) (constants : List Constant) (upvalues : Nat) : Prop :=
  ∀ (first : Listing) (l : Line) (rest : Listing), L = first ++ l :: rest →
    ∃ N : Listing, Fits constants upvalues N first.size l.profile l.bytes ∧
      ∀ offset P, N.At offset P → offset ≤ L.size

/-- A listing with one more instruction behind it can be entered no further than at its end. -/
theorem Listing.At.le {l : Line} (isAt : (L ++ [l]).At offset P) : offset ≤ L.size := by
  obtain ⟨pre, post, hsplit, rfl, henters⟩ := isAt
  rcases List.eq_nil_or_concat post with rfl | ⟨others, x, rfl⟩
  · exact henters.elim
  · rw [List.concat_eq_append, ← List.append_assoc] at hsplit
    rw [(List.append_inj' hsplit rfl).1, Listing.size_append]
    exact Nat.le_add_right _ _

theorem Listing.Closed.bounded (closed : L.Closed P constants upvalues) :
    L.Bounded constants upvalues :=
  fun first l rest split => ⟨_, closed first l rest split, fun _ _ isAt => isAt.le⟩

/-- Every instruction of a bounded listing has a form. -/
theorem Listing.Bounded.known (bounded : L.Bounded constants upvalues) :
    ∀ l ∈ L, ∃ op operand, OpCode.Form op operand l.bytes ∧
      Describes constants op operand l.bytes := by
  intro l hl
  obtain ⟨first, rest, hsplit⟩ := List.append_of_mem hl
  obtain ⟨N, hfits, -⟩ := bounded first l rest hsplit
  exact hfits.known

end Lox
