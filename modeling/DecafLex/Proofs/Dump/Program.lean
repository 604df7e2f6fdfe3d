import DecafLex.Dump
import DecafLex.Proofs.Scanner.Run

/-! What the parts of the program write. The loop of the program prints what a whole scan gives. -/
namespace DecafLex

namespace Dump
open Scanner

namespace Streams

variable (streams : Streams) (a b : String)

end Streams

section
variable {α β : Type}

theorem exec_throw (failure : Failure) (streams : Streams) :
    (throw failure : Program α).exec streams = (.error failure, streams) := rfl

theorem exec_bind (program : Program α) (next : α → Program β) (streams : Streams) :
    Program.exec (program >>= next) streams =
      match program.exec streams with
      | (.ok a, after) => (next a).exec after
      | (.error failure, after) => (.error failure, after) := by
  unfold Program.exec
  rw [ExceptT.run_bind, StateT.run_bind]
  generalize program.run.run streams = done
  obtain ⟨result, after⟩ := done
  cases result <;> rfl

end

/-- A file that cannot be read is not scanned, and nothing but the failure is reported. -/
theorem runOn_of_unreadable (host : Host) (dump : Dump)
    {contents : Except ReadFailure ByteArray} {cause : ReadFailure}
    (h : contents.bind decode = .error cause) :
    dump.runOn host contents = ⟨1, "", (Failure.unreadable dump.path cause).report⟩ := by
  have hread : readSource dump.path contents = throw (.unreadable dump.path cause) := by
    rw [readSource, h]
  rw [runOn, main, hread, exec_bind, exec_throw]
  dsimp only
  simp [Streams.err]

end Dump
end DecafLex
