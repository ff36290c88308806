/-!
Byte ranges of a source text. Offsets count the bytes of the UTF-8 text and the
end of a range is exclusive.
-/

namespace SourceFront

/-- A range of bytes of the file numbered `fileId`. -/
structure Span where
  start : Nat
  stop : Nat
  fileId : Nat
  deriving DecidableEq, Repr, Inhabited

namespace Span

/-- The smallest range that covers both; the file is that of the first. -/
def merge (a b : Span) : Span :=
  ⟨min a.start b.start, max a.stop b.stop, a.fileId⟩

/-- Whether `b` lies entirely inside `a`. -/
def contains (a b : Span) : Bool :=
  a.start ≤ b.start && b.stop ≤ a.stop

/-- The same range `n` bytes further on. -/
def shift (n : Nat) (a : Span) : Span :=
  ⟨a.start + n, a.stop + n, a.fileId⟩

@[simp] theorem contains_iff {a b : Span} :
    a.contains b = true ↔ a.start ≤ b.start ∧ b.stop ≤ a.stop := by
  simp [contains]

theorem merge_contains_left (a b : Span) : (a.merge b).contains a := by
  simp only [contains_iff, merge]
  omega

theorem merge_contains_right (a b : Span) : (a.merge b).contains b := by
  simp only [contains_iff, merge]
  omega

end Span

end SourceFront
