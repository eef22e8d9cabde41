import Lox.Proofs.Evaluation.Instructions

/-!
# Closures and calls

A closure that is made is a function that the evaluator knows. A call of a function starts a call of
its closure, which has a site of its own, and when the function is done the result lies where the
callee was. What the body of a function does is left open here: it is told by `Eval.Obeys`.

## Main definitions

* `Eval.Obeys` — calls of functions are followed.

## Main results

* `closure_follows`, `call_follows`, `giveBack_follows` — making a closure, calling, and giving
  back.
-/

namespace Lox.Eval

variable {α : Type} {p : Printout} {n : Nat} {w : World} {r s : Reference} {F : Site}
  {own : List String} {temps args : List Datum} {ip i id : Nat} {d : Datum} {f : Function}
  {b : UInt8} {bs : List UInt8} {captures : List Capture} {t : Template} {constants : List Constant}

/-! ### Closures -/

/-- Reading a byte. -/
theorem Stands.readByte (stands : Stands p F own w temps ip r) (reads : F.Reads ip (b :: bs)) :
    ∃ s, Reference.readByte r = .ok b s ∧ Stands p F own w temps (ip + 1) s := by
  obtain ⟨k, hk, htemplate, -⟩ := stands.closure
  have hfound : k.template.code[ip]? = some b := by
    simpa [htemplate] using reads 0 (Nat.zero_lt_succ _)
  exact ⟨_, Reference.readByte_of stands.calls hk hfound, { stands with calls := rfl }⟩

/-- A closure that captures one more location is still the same function. -/
theorem capture_answers (stands : Stands p F own w temps ip r) (id ℓ : Nat) :
    Answers p (fun (_ : Unit) w s => Stands p F own w temps ip s) (.ok () w)
      (Reference.capture id ℓ r) := by
  rw [Reference.capture, bind_of_ok (get_apply r)]
  refine answers_of_demand fun k hk => ?_
  have hid : r.callables[id]? = some (.closure k) := by
    unfold Reference.closure? at hk
    split at hk
    · rename_i heq
      cases hk
      exact heq
    · cases hk
  have hlt := (Array.getElem?_eq_some_iff.mp hid).1
  have hother : ∀ {j : Nat}, id ≠ j →
      (r.callables.setIfInBounds id (.closure { k with captured := k.captured.push ℓ }))[j]? =
        r.callables[j]? := fun {j} hne => Array.getElem?_setIfInBounds_ne hne
  refine .ok { stands with callables := fun j => ?_, kept := stands.kept.trans fun j k' hk' => ?_ }
  · by_cases heq : id = j
    · subst heq
      have hrel := stands.callables id
      rw [hid] at hrel
      rw [Array.getElem?_setIfInBounds_self_of_lt hlt]
      generalize w.callables[id]? = o at hrel ⊢
      cases hrel with
      | some hembodies =>
          cases hembodies with
          | function hrealizes => exact .some (.function { hrealizes with })
    · rw [hother heq]
      exact stands.callables j
  · by_cases heq : id = j
    · subst heq
      obtain rfl : k = k' := by simpa using hid.symm.trans hk'
      exact ⟨_, Array.getElem?_setIfInBounds_self_of_lt hlt⟩
    · exact ⟨k'.captured, (hother heq).trans hk'⟩

/-- Capturing the next variable. -/
theorem captureNext_answers {c : Capture} (stands : Stands p F own w temps ip r)
    (reads : F.Reads ip (c.bytes ++ bs)) (id : Nat) :
    Answers p (fun (_ : Unit) w s => Stands p F own w temps (ip + 2) s) (.ok () w)
      (Reference.captureNext id r) := by
  obtain ⟨s, hfirst, hs⟩ := stands.readByte reads
  obtain ⟨t, hsecond, ht⟩ := hs.readByte reads.tail
  rw [Reference.captureNext, bind_of_ok hfirst, bind_of_ok hsecond]
  generalize (if c.isLocal then 1 else 0 : UInt8) = kind
  dsimp only
  split
  · rw [bind_of_ok (Reference.activation_of ht.calls), Reference.location, bind_assoc,
      bind_of_ok (get_apply t)]
    exact answers_of_demand fun ℓ _ => capture_answers ht id ℓ
  · obtain ⟨k, hcurrent, -⟩ := ht.current
    rw [Reference.captured, bind_assoc, bind_of_ok hcurrent]
    exact answers_of_demand fun ℓ _ => capture_answers ht id ℓ

/-- Capturing all variables. -/
theorem captureAll_answers (stands : Stands p F own w temps ip r)
    (reads : F.Reads ip (captures.flatMap Capture.bytes)) (id : Nat) :
    Answers p
      (fun (_ : Unit) w s => Stands p F own w temps
        (ip + (captures.flatMap Capture.bytes).length) s)
      (.ok () w) (Reference.captureAll id captures.length r) := by
  induction captures generalizing r ip with
  | nil => exact .ok stands
  | cons c captures ih =>
      rw [List.flatMap_cons] at reads ⊢
      refine (captureNext_answers stands reads id).then fun s hs => ?_
      have hrest := ih hs reads.right
      rwa [List.length_append, ← Nat.add_assoc]

/-- Making the closure of a function. -/
theorem closure_follows {index : UInt8} (stands : Stands p F own w temps ip r)
    (reads : F.Reads ip (OpCode.closure.short index ++ captures.flatMap Capture.bytes))
    (found : F.closure.constants[index.toNat]? = some (.function t constants))
    (count : t.upvalueCount = captures.length)
    (realizes : Realizes f { template := t, constants }) :
    Follows p n (fun id => Yields p F own temps
        (ip + (OpCode.closure.short index ++ captures.flatMap Capture.bytes).length) (.callable id))
      (make (.function f) w) r := by
  refine stands.follows reads (.closure captures) nofun fun s hs => ?_
  have hmade : Stands p F own { w with callables := w.callables.push (.function f) } temps (ip + 2)
      { s with callables := s.callables.push (.closure { template := t, constants }) } :=
    { hs.make (.function realizes) with
      kept := hs.kept.trans (.push _ _), calls := hs.calls, lays := hs.lays, names := hs.names }
  rw [List.length_append, ← Nat.add_assoc]
  simp only [Reference.execute]
  rw [Reference.makeClosure, bind_of_ok (hs.constant found), make, ← hs.size]
  dsimp only
  rw [bind_of_ok (show Reference.make _ s = .ok _ _ from rfl), count]
  refine (push_answers hmade (.callable s.callables.size)).then fun u hu => ?_
  exact (captureAll_answers hu reads.right _).as fun _ there => there

/-! ### Calls -/

/-- Calls of functions are followed: a machine whose next step starts the call of a closure comes to
the end of this call with the result of the function. -/
def Obeys (p : Printout) (n : Nat) : Prop :=
  ∀ (F : Site) (f : Function) (args : List Datum) (w : World) (r s : Reference),
    Realizes f F.closure → args.length = f.parameters.length → F.outer ≠ [] →
    Reference.step r = .ok .running s →
    Stands p F f.parameters.reverse { w with locals := (f.parameters.zip args).reverse } [] 0 s →
      Follows p n (fun d w' t => Returned p F d w' t ∧ w'.locals = w.locals) (invoke n f args w) r

/-- The data above a slot that is known. -/
theorem Stands.dataFrom (stands : Stands p F own w (temps ++ args) ip r) :
    r.dataFrom (r.stack.size - args.length) = args := by
  have hlays := stands.lays
  rw [← List.append_assoc] at hlays
  have hsize := hlays.size
  rw [List.length_append] at hsize
  rw [hsize, Nat.add_sub_cancel]
  exact Reference.dataFrom_eq hlays

/-- Calling a host function. -/
theorem native_answers (native : Native) (stands : Stands p F own w (temps ++ d :: args) ip r) :
    Answers p (Yields p F own temps ip)
      (.ok (native.run.onData (w.clock w.hostCalls) args) { w with hostCalls := w.hostCalls + 1 })
      (Reference.callNative native args.length r) := by
  have hargs : Stands p F own w (temps ++ [d] ++ args) ip r := by rwa [List.append_assoc]
  have hlays := stands.lays
  rw [← List.append_assoc] at hlays
  have hsize : r.stack.size - args.length - 1 =
      (F.below ++ slots F.callee w.locals ++ temps).length := by
    rw [hlays.size, List.length_append, List.length_cons]
    omega
  rw [Reference.callNative, bind_of_ok (get_apply r), hargs.dataFrom,
    stands.clock, stands.hostCalls,
    hsize, bind_of_ok (modify_apply _ _),
    Reference.truncate, bind_of_ok (modify_apply _ _)]
  refine push_answers (w := { w with hostCalls := w.hostCalls + 1 }) ?_ _
  exact { stands with
    hostCalls := congrArg (· + 1) stands.hostCalls, lays := hlays.under }

/-- Calling a closure: the counts of arguments and parameters differ, or there is no room for one
more call, or the call begins. -/
theorem call_cases {k : Reference.Closure} (stands : Stands p F own w (temps ++ d :: args) ip r)
    (found : r.closure? id = some k) :
    (args.length ≠ k.template.arity ∧ Reference.call id args.length r =
        Reference.raise (.arityMismatch k.template.arity args.length) r) ∨
      (args.length = k.template.arity ∧ (Reference.call id args.length r =
          Reference.raise .stackOverflow r ∨
        Reference.call id args.length r = .ok () { r with calls :=
          { callee := id, base := (F.below ++ slots F.callee w.locals ++ temps).length } ::
            r.calls })) := by
  have hsize : r.stack.size =
      (F.below ++ slots F.callee w.locals ++ temps).length + args.length + 1 := by
    have hlays := stands.lays
    rw [← List.append_assoc] at hlays
    rw [hlays.size, List.length_append, List.length_cons, Nat.add_assoc]
  have hdemand : Reference.demand (r.closure? id) r = .ok k r := by rw [found]; rfl
  rw [Reference.call, bind_of_ok (get_apply r), bind_of_ok hdemand]
  by_cases harity : args.length = k.template.arity
  · refine .inr ⟨harity, ?_⟩
    have hbase : r.stack.size - args.length - 1 =
        (F.below ++ slots F.callee w.locals ++ temps).length := by omega
    rw [if_neg (not_not_intro harity)]
    split
    · exact .inl rfl
    · rw [if_neg (by omega), hbase]
      exact .inr rfl
  · exact .inl ⟨harity, by rw [if_pos harity]⟩

/-- Calls of a function are followed. -/
theorem function_follows {k : Reference.Closure} (obeys : Obeys p n)
    (stands : Stands p F own w (temps ++ .callable id :: args) ip s)
    (found : s.callables[id]? = some (.closure k)) (realizes : Realizes f k)
    (step : Reference.step r =
      (do Reference.call id args.length; return .running : Reference.Act Status) s) :
    Follows p n (Yields p F own temps ip)
      ((if args.length = f.parameters.length then invoke n f args
        else raise (.arityMismatch f.parameters.length args.length) : Act Datum) w) r := by
  rcases call_cases stands (show s.closure? id = some k by rw [Reference.closure?, found]) with
    ⟨hne, hraise⟩ | ⟨heq, hfull | hbegins⟩
  · rw [realizes.arity] at hne hraise
    rw [if_neg hne]
    exact .of_step step (hraise ▸ raise_answers stands.toAgrees _)
  · exact .of_step step (hfull ▸ overflow_answers)
  · rw [realizes.arity] at heq
    rw [if_pos heq]
    rw [bind_of_ok hbegins] at step
    -- the call that begins
    let inner : Site :=
      { made := s.callables, callee := id, closure := k
        outer := { callee := F.callee, ip, base := F.below.length } :: F.outer
        below := F.below ++ slots F.callee w.locals ++ temps, known := found }
    have hinner : Stands p inner f.parameters.reverse
        { w with locals := (f.parameters.zip args).reverse } [] 0
        { s with calls := { callee := id, base := inner.below.length } :: s.calls } :=
      { (stands.withStack s.store s.stack _).withLocals _ with
        kept := .refl _
        calls := by rw [stands.calls]
        lays := by
          rw [slots_zip heq, List.append_nil, List.append_assoc]
          exact stands.lays
        names := by rw [List.map_reverse, List.map_fst_zip (Nat.le_of_eq heq.symm)] }
    refine (obeys inner f args w r _ realizes heq (List.cons_ne_nil _ _) step hinner).imp ?_
    rintro d w' t ⟨hreturned, hlocals⟩
    exact { hreturned.toAgrees with
      kept := stands.kept.trans hreturned.kept
      calls := hreturned.calls
      lays := by
        rw [hlocals, ← List.append_assoc]
        exact hreturned.lays
      names := by rw [hlocals, stands.names] }

/-- Calls of a datum are followed. -/
theorem call_follows (obeys : Obeys p n) (stands : Stands p F own w (temps ++ d :: args) ip r)
    (reads : F.Reads ip (OpCode.call.short (UInt8.ofNat args.length)))
    (few : args.length ≤ Draft.maxArity) :
    Follows p n (Yields p F own temps (ip + 2)) (apply (invoke n) d args w) r := by
  have hcount : (UInt8.ofNat args.length).toNat = args.length := by
    rw [UInt8.toNat_ofNat', Nat.mod_eq_of_lt]
    exact Nat.lt_succ_of_le few
  have hform := @OpCode.Form.short .call (UInt8.ofNat args.length) rfl nofun
  rw [hcount] at hform
  obtain ⟨s, hstep, hs⟩ := stands.step reads hform nofun
  rw [apply, bind_of_ok (get_apply w)]
  cases d with
  | nil | bool | number | text =>
      refine .of_step hstep ?_
      simp only [Reference.execute]
      rw [Reference.callDatum, bind_of_ok hs.peek]
      exact raise_answers hs.toAgrees _
  | callable id =>
      have hrel := hs.callables id
      dsimp only
      generalize w.callables[id]? = o at hrel
      generalize hk : s.callables[id]? = o' at hrel
      have hexecute : Reference.execute .call args.length s =
          Reference.callDatum args.length s := by
        simp only [Reference.execute]
      rw [Reference.callDatum, bind_of_ok hs.peek] at hexecute
      dsimp only at hexecute
      rw [bind_of_ok (get_apply s), hk] at hexecute
      cases hrel with
      | none =>
          refine .of_step hstep ?_
          rw [hexecute]
          exact .breaks (.fault _)
      | some hembodies =>
          cases hembodies with
          | native native =>
              refine .of_step hstep ?_
              rw [hexecute]
              exact native_answers native hs
          | @function f k hrealizes =>
              refine function_follows obeys hs hk hrealizes (hstep.trans ?_)
              simp only [bind, EStateM.bind, hexecute]
              rfl

/-! ### The end of a call -/

/-- The end of a call gives the datum on top of the stack to the caller. -/
theorem giveBack_follows {a : α} {w' : World} {good : α → World → Reference → Prop}
    (stands : Yields p F own [] ip d w r) (reads : F.Reads ip OpCode.giveBack.plain)
    (inner : F.outer ≠ []) (there : ∀ s, Returned p F d w s → good a w' s) :
    Follows p n good (.ok a w') r := by
  obtain ⟨s, hfetch, hs⟩ := stands.fetch reads (.plain rfl nofun)
  obtain ⟨t, hpop, ht⟩ := hs.pop
  have hlays := ht.lays
  rw [List.append_nil] at hlays
  have hstep : Reference.step r = (do Reference.push d; return .running : Reference.Act Status)
      { t with calls := F.outer, stack := t.stack.shrink F.below.length } := by
    rw [Reference.step, bind_of_ok hfetch]
    change Reference.giveBack s = _
    rw [Reference.giveBack, bind_of_ok hpop, bind_of_ok (get_apply t), ht.calls]
    dsimp only
    rw [bind_of_ok (modify_apply _ _), Reference.truncate, bind_of_ok (modify_apply _ _),
      if_neg (by simpa using inner)]
  refine .of_step hstep ((push_lays (ht.withStack _ _ _) hlays.under d).as ?_)
  rintro u ⟨hagrees, hdata, hcalls, hcallables⟩
  exact there u { hagrees with
    kept := by rw [hcallables]; exact ht.kept
    calls := hcalls, lays := hdata }

/-- The end of a script ends the run. -/
theorem giveBack_halts (stands : Yields p F own [] ip d w r)
    (reads : F.Reads ip OpCode.giveBack.plain) (script : F.outer = []) :
    ∃ s, Reference.step r = .ok .halted s ∧ Agrees p w s := by
  obtain ⟨s, hfetch, hs⟩ := stands.fetch reads (.plain rfl nofun)
  obtain ⟨t, hpop, ht⟩ := hs.pop
  refine ⟨{ t with calls := [], stack := t.stack.shrink F.below.length }, ?_,
    ht.withStack t.store _ []⟩
  rw [Reference.step, bind_of_ok hfetch]
  change Reference.giveBack s = _
  rw [Reference.giveBack, bind_of_ok hpop, bind_of_ok (get_apply t), ht.calls, script]
  rfl

end Lox.Eval
