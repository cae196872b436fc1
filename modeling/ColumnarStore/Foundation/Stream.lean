import Mathlib

/-! Output streams with a position.

A write puts its bytes at the position, over those that stand there, and moves the position
behind them. A file is written in one direction, and what was kept free at its beginning is
filled in at the end. -/
namespace ColumnarStore.Foundation

structure OutStream where
  bytes : List UInt8 := []
  pos : Nat := 0

namespace OutStream

/-- Behind the end of the file there are zeros. -/
def write (s : OutStream) (data : List UInt8) : OutStream where
  bytes := s.bytes.take s.pos ++ List.replicate (s.pos - s.bytes.length) 0 ++ data ++
    s.bytes.drop (s.pos + data.length)
  pos := s.pos + data.length

def seek (s : OutStream) (pos : Nat) : OutStream := {s with pos}

/-- A write in the middle of a file. -/
theorem write_over (before old data : List UInt8) :
    write ⟨before ++ old, before.length⟩ data =
      ⟨before ++ data ++ old.drop data.length, (before ++ data).length⟩ := by
  simp [write]

/-- At the end of a file a write appends. -/
theorem write_end (bytes data : List UInt8) :
    write ⟨bytes, bytes.length⟩ data = ⟨bytes ++ data, (bytes ++ data).length⟩ := by
  simpa using write_over bytes [] data

/-- Writes one after another are one write of everything. -/
theorem foldl_write (chunks : List (List UInt8)) (before old : List UInt8) :
    chunks.foldl write ⟨before ++ old, before.length⟩ =
      ⟨before ++ chunks.flatten ++ old.drop chunks.flatten.length, (before ++ chunks.flatten).length⟩ := by
  induction chunks generalizing before old with
  | nil => simp
  | cons data rest ih =>
    rw [List.foldl_cons, write_over, ih]
    simp

/-- What was kept free at the beginning of a file is filled in, piece by piece. -/
theorem foldl_write_start {chunks : List (List UInt8)} {free : List UInt8}
    (h : chunks.flatten.length = free.length) (rest : List UInt8) (pos : Nat) :
    (chunks.foldl write (seek ⟨free ++ rest, pos⟩ 0)).bytes = chunks.flatten ++ rest := by
  have hfold := foldl_write chunks [] (free ++ rest)
  rw [h, List.nil_append, List.drop_left' rfl] at hfold
  exact congrArg OutStream.bytes hfold

end OutStream

end ColumnarStore.Foundation
