import Lox.Proofs.Compile.Jumps.Extending

/-!
# Jumps and their targets

How a jump is written, and how it is given its target. The distance counts from the end of the
operand. For a forward jump this is there when the distance is known; for a loop it is yet to be
written, and two is added instead.

## Main results

* `emitJump_ok` — a jump that waits for its target.
* `patchJump_exact`, `emitLoop_exact` — jumps that are given their targets.
-/

namespace Lox

/-! ### Operands -/

namespace Chunk

variable {k : Chunk} {p distance : Nat}

theorem patch_size (k : Chunk) (p distance : Nat) :
    (k.patch p distance).code.size = k.code.size := by simp [patch]

/-- No other byte is changed. -/
theorem patch_others {i : Nat} (high : i ≠ p) (low : i ≠ p + 1) :
    (k.patch p distance).code[i]? = k.code[i]? := by
  simp [patch, high.symm, low.symm]

/-- Two bytes that are the operand of a jump. -/
theorem pairAt?_of_bytes (near : distance ≤ 65535)
    (high : k.code[p]? = some (highByte distance))
    (low : k.code[p + 1]? = some (lowByte distance)) : k.pairAt? p = some distance := by
  rw [pairAt?, high, low]
  exact congrArg some (pair_high_low (Nat.lt_succ_of_le near))

/-- The operand that has been patched in. -/
theorem pairAt?_patch (within : p + 2 ≤ k.code.size) (near : distance ≤ 65535) :
    (k.patch p distance).pairAt? p = some distance := by
  have hp : p < k.code.size := by omega
  have hp' : p + 1 < k.code.size := by omega
  exact pairAt?_of_bytes near (by simp [patch, hp]) (by simp [patch, hp'])

end Chunk

/-- Three bytes that are written behind some code. -/
theorem getElem?_pushes (code : Array UInt8) (first second third : UInt8) :
    (((code.push first).push second).push third)[code.size]? = some first ∧
      (((code.push first).push second).push third)[code.size + 1]? = some second ∧
      (((code.push first).push second).push third)[code.size + 1 + 1]? = some third := by
  simp only [Array.getElem?_push, Array.size_push]
  refine ⟨?_, ?_, if_pos trivial⟩
  · rw [if_neg (by omega), if_neg (by omega), if_pos trivial]
  · rw [if_neg (by omega), if_pos trivial]

/-- A jump that has been written behind some code, and waits for its target. -/
theorem JumpSite.Placed.waiting (code : Array UInt8) {op : OpCode} (high low : UInt8)
    (forward : op = .jump ∨ op = .jumpIfFalse) :
    Placed (((code.push op.toByte).push high).push low) ⟨op, code.size + 1, none⟩ := by
  refine ⟨Nat.succ_pos _, by simp, (getElem?_pushes code _ _ _).1, forward.imp_right .inl, ?_, ?_⟩
  all_goals
    intro aim haim
    cases haim

namespace Compiler

variable {c c' : Compiler} {site : JumpSite} {u : Unit}

/-! ### Reports -/

/-- A report raises an alarm, unless there is one already. -/
theorem alarm_report (c : Compiler) (token : Token) (issue : Issue) :
    (c.report token issue).alarm = some (c.alarm.getD (.atToken token issue)) := by
  unfold report panicking
  cases halarm : c.alarm with
  | none => rfl
  | some d => exact halarm

/-- A report writes no code. -/
theorem draft_report (c : Compiler) (token : Token) (issue : Issue) :
    (c.report token issue).draft = c.draft := by
  unfold report
  split <;> rfl

/-! ### Forward jumps -/

/-- Writing a jump that waits for its target. -/
theorem emitJump_ok {op : OpCode} {p : Nat} (run : emitJump op c = .ok p c') :
    p = c.code.size + 1 ∧ c'.code = ((c.code.push op.toByte).push 0xff).push 0xff := by
  cases run
  exact ⟨by simp [Chunk.write], rfl⟩

/-- What patching a jump does. -/
theorem patchJump_ok {p : Nat} (run : patchJump p c = .ok u c') :
    (c.code.size - p - 2 ≤ 65535 ∧ c' = { c with draft := { c.draft with
      chunk := c.draft.chunk.patch p (c.code.size - p - 2) } }) ∨
    (65535 < c.code.size - p - 2 ∧ c' = c.report c.previous .jumpTooLong) := by
  have hsize : codeSize c = .ok c.code.size c := rfl
  rw [patchJump, bind_of_ok hsize] at run
  split at run <;> rename_i hdistance <;> cases run
  · exact .inl ⟨hdistance, rfl⟩
  · exact .inr ⟨Nat.lt_of_not_le hdistance, rfl⟩

/-- Patching a jump has nothing to do with the functions around, and keeps what is reported. -/
theorem patchJump_frame {p : Nat} (run : patchJump p c = .ok u c') :
    c'.outerCode = c.outerCode ∧ c.reported.toList <+: c'.reported.toList := by
  rcases patchJump_ok run with ⟨-, rfl⟩ | ⟨-, rfl⟩
  · exact ⟨rfl, List.prefix_rfl⟩
  · have hextended := Extended.report c c.previous .jumpTooLong
    exact ⟨hextended.outerCode, hextended.reported⟩

/-- A forward jump that is given its target. -/
theorem patchJump_exact (forward : site.op ≠ .loop) (within : site.operand + 2 ≤ c.code.size)
    (run : patchJump site.operand c = .ok u c') : Aim.Exact site ⟨c.code.size, c, c'⟩ := by
  have hreach : site.reach c.code.size = c.code.size - site.operand - 2 := by
    rw [JumpSite.reach]
    omega
  have hissue : site.issue = .jumpTooLong := if_neg forward
  rcases patchJump_ok run with ⟨hnear, rfl⟩ | ⟨hfar, rfl⟩
  · refine ⟨fun _ => ⟨rfl, within, Chunk.patch_size ..⟩, fun hloop => absurd hloop forward,
      fun i _ hi hi' => Chunk.patch_others hi hi', fun _ => ⟨?_, rfl, rfl⟩, fun hfar => ?_⟩
    · rw [hreach]
      exact Chunk.pairAt?_patch within hnear
    · rw [hreach] at hfar
      exact absurd hfar (Nat.not_lt.mpr hnear)
  · have hcode : (c.report c.previous .jumpTooLong).code = c.code := by rw [code, draft_report]
    obtain ⟨-, -, hdiagnostics⟩ := report_tokens c c.previous .jumpTooLong
    refine ⟨fun _ => ⟨rfl, within, by rw [hcode]⟩, fun hloop => absurd hloop forward,
      fun i _ _ _ => by rw [hcode], fun hnear => ?_, fun _ => ⟨?_, hdiagnostics⟩⟩
    · rw [hreach] at hnear
      exact absurd hfar (Nat.not_lt.mpr hnear)
    · rw [JumpSite.verdict, hissue]
      exact alarm_report c c.previous .jumpTooLong

/-! ### Loops -/

/-- Writing an operand of two bytes. -/
theorem emitBytes_ok {high low : UInt8}
    (run : (do emitByte high; emitByte low : CompileM Unit) c = .ok u c') :
    c'.code = (c.code.push high).push low ∧ c'.alarm = c.alarm ∧
      c'.diagnostics = c.diagnostics := by
  cases run
  exact ⟨rfl, rfl, rfl⟩

/-- What writing a loop does. -/
theorem emitLoop_ok {target : Nat} (run : emitLoop target c = .ok u c') :
    ∃ high low, c'.code = ((c.code.push OpCode.loop.toByte).push high).push low ∧
      c'.diagnostics = c.diagnostics ∧
      ((c.code.size + 1 - target + 2 ≤ 65535 ∧
          high = Chunk.highByte (c.code.size + 1 - target + 2) ∧
          low = Chunk.lowByte (c.code.size + 1 - target + 2) ∧ c'.alarm = c.alarm) ∨
        (65535 < c.code.size + 1 - target + 2 ∧
          c'.alarm = some (c.alarm.getD (.atToken c.previous .loopTooLong)))) := by
  obtain ⟨opened, hopen, hcode, hprevious, halarm, hdiagnostics⟩ : ∃ opened,
      emit .loop c = .ok () opened ∧ opened.code = c.code.push OpCode.loop.toByte ∧
        opened.previous = c.previous ∧ opened.alarm = c.alarm ∧
        opened.diagnostics = c.diagnostics := ⟨_, rfl, rfl, rfl, rfl, rfl⟩
  have hsize : codeSize opened = .ok (c.code.size + 1) opened := by
    rw [← Array.size_push OpCode.loop.toByte, ← hcode]
    rfl
  rw [emitLoop, bind_of_ok hopen, bind_of_ok hsize] at run
  split at run <;> rename_i hdistance
  · obtain ⟨hcode', halarm', hdiagnostics'⟩ := emitBytes_ok run
    exact ⟨_, _, hcode ▸ hcode', hdiagnostics'.trans hdiagnostics,
      .inl ⟨hdistance, rfl, rfl, halarm'.trans halarm⟩⟩
  · have hreport : complain .loopTooLong opened =
        .ok () (opened.report c.previous .loopTooLong) := hprevious ▸ rfl
    obtain ⟨-, -, hsame⟩ := report_tokens opened c.previous .loopTooLong
    rw [bind_of_ok hreport] at run
    obtain ⟨hcode', halarm', hdiagnostics'⟩ := emitBytes_ok run
    rw [code, code, draft_report] at hcode'
    refine ⟨0, 0, hcode ▸ hcode', hdiagnostics'.trans (hsame.trans hdiagnostics),
      .inr ⟨Nat.lt_of_not_le hdistance, ?_⟩⟩
    rw [halarm', alarm_report, halarm]

/-- A loop that leads back into the code. -/
theorem emitLoop_exact {target : Nat} (within : target ≤ c.code.size) (op : site.op = .loop)
    (operand : site.operand = c.code.size + 1) (run : emitLoop target c = .ok u c') :
    Aim.Exact site ⟨target, c, c'⟩ := by
  have hreach : site.reach target = c.code.size + 1 - target + 2 := by
    rw [JumpSite.reach, operand]
    omega
  have hissue : site.issue = .loopTooLong := if_pos op
  have hextended := Extends.closed.emitLoop target c u c' run
  obtain ⟨high, low, hcode, hdiagnostics, hcases⟩ := emitLoop_ok run
  obtain ⟨-, hhigh, hlow⟩ := getElem?_pushes c.code OpCode.loop.toByte high low
  rw [← hcode, ← operand] at hhigh hlow
  refine ⟨fun hforward => absurd op hforward, fun _ => ⟨within, operand, by simp [hcode]⟩,
    fun i hi _ _ => hextended.same i hi, fun hnear => ?_, fun hfar => ?_⟩
  · rw [hreach] at hnear ⊢
    rcases hcases with ⟨-, rfl, rfl, halarm⟩ | ⟨hfar, -⟩
    · exact ⟨Chunk.pairAt?_of_bytes hnear hhigh hlow, halarm, hdiagnostics⟩
    · exact absurd hfar (Nat.not_lt.mpr hnear)
  · rw [hreach] at hfar
    rcases hcases with ⟨hnear, -⟩ | ⟨-, halarm⟩
    · exact absurd hfar (Nat.not_lt.mpr hnear)
    · rw [JumpSite.verdict, hissue]
      exact ⟨halarm, hdiagnostics⟩

end Compiler

end Lox
