import Mathlib.Data.List.Count
import SourceFront.Proofs.LineIndex

/-!
Lines and columns. The line of an offset is told by the line feeds among the bytes in front of
it, and the column by the last of these, so the offset can be told from both. They are found by
halving, in which no number falls below zero and none has more than 32 bits.
-/

namespace SourceFront

namespace Text

def lineFeed : UInt8 := 10

/-- The UTF-8 form of a text. -/
def bytes (source : String) : List UInt8 :=
  source.toUTF8.data.toList

theorem bytes_eq (source : String) :
    bytes source = source.toList.flatMap String.utf8EncodeChar := by
  rw [bytes, String.toUTF8_eq_toByteArray, ← String.utf8Encode_toList, List.utf8Encode,
    List.toList_data_toByteArray]

theorem eq_of_lineFeed_mem {c : Char} (h : lineFeed ∈ String.utf8EncodeChar c) : c = '\n' := by
  have hbyte {n : Nat} (hn : lineFeed = UInt8.ofNat n) : n % 256 = 10 := by
    rw [← UInt8.toNat_ofNat', ← hn]
    rfl
  have hval : c.val.toNat = 10 := by
    unfold String.utf8EncodeChar at h
    dsimp only at h
    split at h
    · have hlast := hbyte (List.mem_singleton.mp h)
      omega
    · -- No byte of a longer form is the byte of a character by itself.
      exfalso
      split at h
      · simp only [List.mem_cons, List.not_mem_nil, or_false] at h
        rcases h with h | h <;> have hbyte := hbyte h <;> omega
      split at h
      · simp only [List.mem_cons, List.not_mem_nil, or_false] at h
        rcases h with h | h | h <;> have hbyte := hbyte h <;> omega
      · simp only [List.mem_cons, List.not_mem_nil, or_false] at h
        rcases h with h | h | h | h <;> have hbyte := hbyte h <;> omega
  exact Char.ext (UInt32.toNat_inj.mp hval)

/-- The line that reaches to the offset, or over it, starts at `start`: at the beginning of the
text or behind a line feed, and no line feed stands between. -/
structure LineStart (bytes : List UInt8) (offset start : Nat) : Prop where
  opens : start = 0 ∨ ∃ feed < offset, bytes[feed]? = some lineFeed ∧ start = feed + 1
  last : ∀ place, start ≤ place → place < offset → bytes[place]? ≠ some lineFeed

namespace LineStart

variable {bytes : List UInt8} {offset start : Nat}

theorem le (h : LineStart bytes offset start) : start ≤ offset := by
  rcases h.opens with rfl | ⟨feed, hlt, -, rfl⟩
  · exact Nat.zero_le _
  · exact hlt

theorem unique (h : LineStart bytes offset start) {other : Nat}
    (hother : LineStart bytes offset other) : start = other := by
  have hle {a b : Nat} (ha : LineStart bytes offset a) (hb : LineStart bytes offset b) :
      a ≤ b := by
    rcases ha.opens with rfl | ⟨feed, hlt, hfeed, rfl⟩
    · exact Nat.zero_le _
    · by_contra hless
      exact hb.last feed (by omega) hlt hfeed
  exact Nat.le_antisymm (hle h hother) (hle hother h)

theorem mono (h : LineStart bytes offset start) {offset' : Nat} (hle : offset ≤ offset')
    (hnone : ∀ place, offset ≤ place → place < offset' → bytes[place]? ≠ some lineFeed) :
    LineStart bytes offset' start where
  opens := by
    rcases h.opens with rfl | ⟨feed, hlt, hfeed, rfl⟩
    · exact .inl rfl
    · exact .inr ⟨feed, Nat.lt_of_lt_of_le hlt hle, hfeed, rfl⟩
  last place hstart hlt := by
    by_cases hbefore : place < offset
    · exact h.last place hstart hbefore
    · exact hnone place (Nat.le_of_not_lt hbefore) hlt

end LineStart

end Text

open Text

/-- Further up in the text, or in the same line further left. -/
def Position.Before (a b : Position) : Prop :=
  a.line < b.line ∨ a.line = b.line ∧ a.column < b.column

namespace LineIndex

/-- The places behind the line feeds of a text, the first byte of which is at `offset`. -/
def feedEnds (offset : Nat) (bytes : List UInt8) : List Nat :=
  ((bytes.zipIdx offset).filter (·.1 = lineFeed)).map (·.2 + 1)

section

variable (offset : Nat) (byte : UInt8) (bytes more : List UInt8)

theorem feedEnds_cons :
    feedEnds offset (byte :: bytes) =
      if byte = lineFeed then (offset + 1) :: feedEnds (offset + 1) bytes
      else feedEnds (offset + 1) bytes := by
  rw [feedEnds, List.zipIdx_cons, List.filter_cons]
  by_cases hfeed : byte = lineFeed
  · simp [hfeed, feedEnds]
  · simp [hfeed, feedEnds]

theorem feedEnds_append :
    feedEnds offset (bytes ++ more) =
      feedEnds offset bytes ++ feedEnds (offset + bytes.length) more := by
  rw [feedEnds, List.zipIdx_append, List.filter_append, List.map_append, feedEnds, feedEnds]

theorem feedEnds_of_not_mem (h : lineFeed ∉ bytes) : feedEnds offset bytes = [] := by
  induction bytes generalizing offset with
  | nil => rfl
  | cons byte bytes ih =>
      obtain ⟨hbyte, hbytes⟩ := not_or.mp (List.mem_cons.not.mp h)
      rw [feedEnds_cons, if_neg (Ne.symm hbyte), ih _ hbytes]

theorem mem_feedEnds {next : Nat} :
    next ∈ feedEnds offset bytes ↔
      ∃ feed, bytes[feed]? = some lineFeed ∧ next = offset + feed + 1 := by
  simp only [feedEnds, List.mem_map, List.mem_filter, decide_eq_true_eq, Prod.exists,
    List.mk_mem_zipIdx_iff_le_and_getElem?_sub]
  constructor
  · rintro ⟨_, place, ⟨⟨hle, hbyte⟩, rfl⟩, rfl⟩
    exact ⟨place - offset, hbyte, by omega⟩
  · rintro ⟨feed, hfeed, rfl⟩
    exact ⟨lineFeed, offset + feed, ⟨⟨by omega, by simpa using hfeed⟩, rfl⟩, rfl⟩

theorem feedEnds_pairwise : (feedEnds offset bytes).Pairwise (· < ·) := by
  induction bytes generalizing offset with
  | nil => exact .nil
  | cons byte bytes ih =>
      rw [feedEnds_cons]
      split
      · refine .cons (fun next hmem => ?_) (ih _)
        obtain ⟨feed, -, rfl⟩ := (mem_feedEnds _ _).mp hmem
        omega
      · exact ih _

theorem countP_feedEnds (count : Nat) :
    (feedEnds offset bytes).countP (· ≤ offset + count) = (bytes.take count).count lineFeed := by
  induction bytes generalizing offset count with
  | nil => rw [List.take_nil]; rfl
  | cons byte bytes ih =>
      cases count with
      | zero =>
          rw [List.take_zero, List.count_nil, List.countP_eq_zero]
          intro next hmem
          obtain ⟨feed, -, rfl⟩ := (mem_feedEnds _ _).mp hmem
          simp only [decide_eq_true_eq]
          omega
      | succ count =>
          have hrest := ih (offset + 1) count
          rw [Nat.add_right_comm] at hrest
          rw [feedEnds_cons, List.take_succ_cons, List.count_cons]
          split
          next hfeed =>
            rw [List.countP_cons_of_pos (by simp), ← hrest, hfeed, beq_self_eq_true, if_pos rfl,
              Nat.add_assoc]
          next hfeed => rw [← hrest, beq_eq_false_iff_ne.mpr hfeed, Nat.add_assoc]; rfl

end

theorem startsBehindFeeds_eq (offset : Nat) (cs : List Char) :
    startsBehindFeeds offset cs = feedEnds offset (cs.flatMap String.utf8EncodeChar) := by
  induction cs generalizing offset with
  | nil => rfl
  | cons c cs ih =>
      rw [startsBehindFeeds, List.flatMap_cons, feedEnds_append, String.length_utf8EncodeChar,
        ← ih]
      split
      next hfeed => rw [hfeed]; rfl
      next hfeed =>
        rw [feedEnds_of_not_mem _ _ fun hmem => hfeed (eq_of_lineFeed_mem hmem), List.nil_append]

theorem starts_ofSource (source : String) :
    (ofSource source).starts = 0 :: feedEnds 0 (bytes source) := by
  rw [ofSource, startsBehindFeeds_eq, bytes_eq]

/-- The starts of lines, cut at the last one that is not behind the offset. -/
structure Cut (starts : List Nat) (offset : Nat) (front : List Nat) (start : Nat)
    (behind : List Nat) : Prop where
  starts_eq : starts = front ++ start :: behind
  before : ∀ next ∈ front, next < start
  le : start ≤ offset
  lt : ∀ next ∈ behind, offset < next

theorem exists_cut {offset start : Nat} {starts : List Nat}
    (hordered : (start :: starts).Pairwise (· < ·)) (hle : start ≤ offset) (line : Nat) :
    ∃ front last behind, Cut (start :: starts) offset front last behind ∧
      locate offset line start starts = (line + front.length, last) := by
  induction starts generalizing line start with
  | nil => exact ⟨[], start, [], ⟨rfl, by simp, hle, by simp⟩, rfl⟩
  | cons next starts ih =>
      obtain ⟨hstart, hrest⟩ := List.pairwise_cons.mp hordered
      rw [locate]
      split
      next hnext =>
        obtain ⟨front, last, behind, hcut, hlocate⟩ := ih hrest hnext (line + 1)
        refine ⟨start :: front, last, behind, ⟨?_, fun other hmem => ?_, hcut.le, hcut.lt⟩, ?_⟩
        · rw [hcut.starts_eq, List.cons_append]
        · rcases List.mem_cons.mp hmem with rfl | hmem
          · exact hstart last (hcut.starts_eq ▸ by simp)
          · exact hcut.before other hmem
        · rw [hlocate, List.length_cons, Nat.add_assoc, Nat.add_comm 1]
      next hnext =>
        refine ⟨[], start, next :: starts, ⟨rfl, by simp, hle, fun other hmem => ?_⟩, rfl⟩
        rcases List.mem_cons.mp hmem with rfl | hmem
        · omega
        · have hless := (List.pairwise_cons.mp hrest).1 other hmem
          omega

/-- Halving finds where the starts begin that are not in front of the offset. -/
theorem partitionPoint_starts {offset : Nat} {as bs : List Nat} (has : ∀ next ∈ as, next < offset)
    (hbs : ∀ next ∈ bs, offset ≤ next) : partitionPoint (· < offset) (as ++ bs) = as.length :=
  partitionPoint_append (fun next hmem => by simpa using has next hmem)
    fun next hmem => by simpa using hbs next hmem

namespace Cut

variable {starts front behind : List Nat} {offset start : Nat}
  (h : Cut starts offset front start behind)
include h

theorem getElem? : starts[front.length]? = some start := by
  rw [h.starts_eq, List.getElem?_append_right (Nat.le_refl _), Nat.sub_self,
    List.getElem?_cons_zero]

theorem countP : starts.countP (· ≤ offset) = front.length + 1 := by
  have hfront : front.countP (· ≤ offset) = front.length :=
    List.countP_eq_length.mpr fun next hmem => by
      simpa using Nat.le_of_lt (Nat.lt_of_lt_of_le (h.before next hmem) h.le)
  have hbehind : behind.countP (· ≤ offset) = 0 :=
    List.countP_eq_zero.mpr fun next hmem => by simpa using h.lt next hmem
  rw [h.starts_eq, List.countP_append, List.countP_cons_of_pos (by simpa using h.le), hfront,
    hbehind]

theorem search_of_eq (hsame : start = offset) : search ⟨starts⟩ offset = .ok front.length := by
  have hplace : partitionPoint (· < offset) starts = front.length := by
    rw [h.starts_eq]
    refine partitionPoint_starts (fun next hmem => hsame ▸ h.before next hmem)
      fun next hmem => ?_
    rcases List.mem_cons.mp hmem with rfl | hmem
    · exact Nat.le_of_eq hsame.symm
    · exact Nat.le_of_lt (h.lt next hmem)
  rw [search, hplace]
  exact if_pos (by rw [h.getElem?, hsame])

theorem search_of_lt (hless : start < offset) :
    search ⟨starts⟩ offset = .error (front.length + 1) := by
  have hfront (next : Nat) (hmem : next ∈ front ++ [start]) : next < offset := by
    rcases List.mem_append.mp hmem with hmem | hmem
    · exact Nat.lt_of_lt_of_le (h.before next hmem) h.le
    · exact List.mem_singleton.mp hmem ▸ hless
  have hplace : partitionPoint (· < offset) starts = front.length + 1 := by
    rw [h.starts_eq, List.append_cons,
      partitionPoint_starts hfront fun next hmem => Nat.le_of_lt (h.lt next hmem),
      List.length_append, List.length_singleton]
  have hmiss : starts[front.length + 1]? ≠ some offset := by
    rw [h.starts_eq, List.getElem?_append_right (Nat.le_add_right _ 1),
      Nat.add_sub_cancel_left, List.getElem?_cons_succ]
    intro hfound
    exact Nat.lt_irrefl _ (h.lt offset (List.mem_of_getElem? hfound))
  rw [search, hplace]
  exact if_neg hmiss

theorem line? : LineIndex.line? ⟨starts⟩ offset = some front.length := by
  rw [LineIndex.line?]
  rcases Nat.eq_or_lt_of_le h.le with hsame | hless
  · rw [h.search_of_eq hsame]
  · rw [h.search_of_lt hless]
    exact if_pos (Nat.le_add_left 1 _)

/-- Only the two sums can overflow. -/
theorem position?_eq :
    LineIndex.position? ⟨starts⟩ offset =
      (ordinal? front.length).bind fun line =>
        (ordinal? (offset - start)).map (Position.mk line) := by
  have hminus : minus? offset start = some (offset - start) := if_pos h.le
  rw [position?, h.line?]
  simp only [Option.bind_eq_bind, Option.bind_some, h.getElem?, hminus, Option.map_eq_bind]
  rfl

end Cut

section Source

variable (source : String) (offset : Nat)

/-- The starts of the lines of a source are cut at the line of the offset. -/
theorem exists_lineStart :
    ∃ front start behind, Cut (ofSource source).starts offset front start behind ∧
      locate offset 0 0 (ofSource source).starts.tail = (front.length, start) ∧
      front.length = ((bytes source).take offset).count lineFeed ∧
      LineStart (bytes source) offset start := by
  have hordered : (0 :: feedEnds 0 (bytes source)).Pairwise (· < ·) := by
    refine .cons (fun next hmem => ?_) (feedEnds_pairwise _ _)
    obtain ⟨feed, -, rfl⟩ := (mem_feedEnds _ _).mp hmem
    exact Nat.succ_pos _
  obtain ⟨front, start, behind, hcut, hlocate⟩ := exists_cut hordered (Nat.zero_le offset) 0
  rw [starts_ofSource]
  refine ⟨front, start, behind, hcut, by rw [List.tail_cons, hlocate, Nat.zero_add], ?_, ?_,
    fun place hplace hlt hfeed => ?_⟩
  · have hcount := countP_feedEnds 0 (bytes source) offset
    have hall := hcut.countP
    rw [List.countP_cons_of_pos (by simp)] at hall
    rw [Nat.zero_add] at hcount
    omega
  · have hmem : start ∈ 0 :: feedEnds 0 (bytes source) := hcut.starts_eq ▸ by simp
    rcases List.mem_cons.mp hmem with rfl | hmem
    · exact .inl rfl
    · obtain ⟨feed, hfeed, rfl⟩ := (mem_feedEnds _ _).mp hmem
      have hle := hcut.le
      exact .inr ⟨feed, by omega, hfeed, by omega⟩
  · have hmem : place + 1 ∈ front ++ start :: behind :=
      hcut.starts_eq ▸ List.mem_cons_of_mem 0 ((mem_feedEnds _ _).mpr ⟨place, hfeed, by omega⟩)
    rcases List.mem_append.mp hmem with hmem | hmem
    · have hless := hcut.before _ hmem
      omega
    rcases List.mem_cons.mp hmem with hsame | hmem
    · omega
    · have hless := hcut.lt _ hmem
      omega

variable {source offset}

theorem ordinal_of_lt {count : Nat} (h : count < UInt32.size - 1) : ordinal count = 1 + count := by
  rw [ordinal_eq, Nat.mod_eq_of_lt (by omega), Nat.add_comm]

theorem ordinal?_eq_some {count number : Nat} (h : ordinal? count = some number) :
    number = ordinal count := by
  rw [ordinal?] at h
  split at h
  · cases h
  · exact (Option.some.inj h).symm

theorem ordinal?_of_lt {count : Nat} (h : count < UInt32.size - 1) :
    ordinal? count = some (ordinal count) := by
  refine if_neg fun hzero => ?_
  have hordinal : ordinal count = 0 := congrArg UInt32.toNat hzero
  rw [ordinal_of_lt h] at hordinal
  omega

theorem position?_eq_some {place : Position} (h : (ofSource source).position? offset = some place) :
    place = (ofSource source).position offset := by
  obtain ⟨front, start, behind, hcut, hlocate, -⟩ := exists_lineStart source offset
  have hposition? := hcut.position?_eq.symm.trans h
  obtain ⟨line, hline, hcolumn⟩ := Option.bind_eq_some_iff.mp hposition?
  obtain ⟨column, hcount, rfl⟩ := Option.map_eq_some_iff.mp hcolumn
  rw [position, hlocate, ordinal?_eq_some hline, ordinal?_eq_some hcount]

theorem position_eq (h : offset < UInt32.size - 1) :
    ∃ start, LineStart (bytes source) offset start ∧
      (ofSource source).position offset =
        ⟨1 + ((bytes source).take offset).count lineFeed, 1 + (offset - start)⟩ ∧
      (ofSource source).position? offset = some ((ofSource source).position offset) ∧
      (ofSource source).starts[((bytes source).take offset).count lineFeed]? = some start := by
  obtain ⟨front, start, behind, hcut, hlocate, hfront, hstart⟩ := exists_lineStart source offset
  have hline : front.length < UInt32.size - 1 := by
    have hcount := List.count_le_length (a := lineFeed) (l := (bytes source).take offset)
    have htake := List.length_take_le offset (bytes source)
    omega
  have hless : offset - start < UInt32.size - 1 := Nat.lt_of_le_of_lt (Nat.sub_le _ _) h
  have hposition :
      (ofSource source).position offset = ⟨ordinal front.length, ordinal (offset - start)⟩ := by
    rw [position, hlocate]
  refine ⟨start, hstart, ?_, ?_, hfront ▸ hcut.getElem?⟩
  · rw [hposition, ordinal_of_lt hline, ordinal_of_lt hless, hfront]
  · rw [hposition, hcut.position?_eq, ordinal?_of_lt hline, ordinal?_of_lt hless]
    rfl

theorem position_before {a b : Nat} (hlt : a < b) (hb : b < UInt32.size - 1) :
    ((ofSource source).position a).Before ((ofSource source).position b) := by
  obtain ⟨start, hstart, hposition, -⟩ := @position_eq source a (by omega)
  obtain ⟨start', hstart', hposition', -⟩ := @position_eq source b hb
  have hsplit : (bytes source).take b =
      (bytes source).take a ++ ((bytes source).drop a).take (b - a) := by
    rw [← List.take_add, Nat.add_sub_cancel' (Nat.le_of_lt hlt)]
  rw [hposition, hposition', Position.Before, hsplit, List.count_append]
  dsimp only
  by_cases hfeed : lineFeed ∈ ((bytes source).drop a).take (b - a)
  · have hpos := List.count_pos_iff.mpr hfeed
    exact .inl (by omega)
  · -- The line is the same, so it starts at the same place.
    obtain rfl : start = start' := by
      refine (hstart.mono (Nat.le_of_lt hlt) fun place hle hless hget => hfeed ?_).unique hstart'
      refine List.mem_of_getElem? (i := place - a) ?_
      rw [List.getElem?_take_of_lt (by omega), List.getElem?_drop, Nat.add_sub_cancel' hle, hget]
    have hle := hstart.le
    rw [List.count_eq_zero_of_not_mem hfeed]
    exact .inr ⟨rfl, by omega⟩

end Source

end LineIndex

open LineIndex (ofSource)

/-- The position of an offset that can be counted: its line is one more than the line feeds in
front of it, its column counts on from the start of that line, and nothing goes wrong in finding
them. Positions come in the order of the offsets, no two offsets have one position, and the offset
is what it was found from. -/
theorem positions_exact (source : String) :
    (∀ offset < UInt32.size - 1, ∃ start, LineStart (bytes source) offset start ∧
      (ofSource source).position offset =
        ⟨1 + ((bytes source).take offset).count lineFeed, 1 + (offset - start)⟩ ∧
      (ofSource source).position? offset = some ((ofSource source).position offset) ∧
      (ofSource source).starts[((ofSource source).position offset).line - 1]? = some start ∧
      start + ((ofSource source).position offset).column - 1 = offset) ∧
    (∀ a b, a < b → b < UInt32.size - 1 →
      ((ofSource source).position a).Before ((ofSource source).position b)) ∧
    ∀ a b, a < UInt32.size - 1 → b < UInt32.size - 1 → a ≠ b →
      (ofSource source).position a ≠ (ofSource source).position b := by
  refine ⟨fun offset hlt => ?_, fun a b => LineIndex.position_before,
    fun a b ha hb hne hsame => ?_⟩
  · obtain ⟨start, hstart, hposition, hposition?, hget⟩ := LineIndex.position_eq hlt
    have hle := hstart.le
    refine ⟨start, hstart, hposition, hposition?, ?_, ?_⟩
    · rw [hposition]
      simpa using hget
    · rw [hposition]
      dsimp only
      omega
  · have hirrefl (position : Position) : ¬position.Before position := by
      simp [Position.Before]
    rcases Nat.lt_or_gt_of_ne hne with hlt | hlt
    · have hbefore := @LineIndex.position_before source a b hlt hb
      rw [hsame] at hbefore
      exact hirrefl _ hbefore
    · have hbefore := @LineIndex.position_before source b a hlt ha
      rw [hsame] at hbefore
      exact hirrefl _ hbefore

/-- An empty line behind a character of two bytes, and a place behind the end. -/
theorem positions_exact_empty_line :
    (ofSource "é\n\nb").position 3 = ⟨2, 1⟩ ∧ (ofSource "é\n\nb").position 9 = ⟨3, 6⟩ ∧
      (∃ start, LineStart (bytes "é\n\nb") 3 start ∧
        (ofSource "é\n\nb").position 3 =
          ⟨1 + ((bytes "é\n\nb").take 3).count lineFeed, 1 + (3 - start)⟩ ∧
        (ofSource "é\n\nb").position? 3 = some ((ofSource "é\n\nb").position 3) ∧
        (ofSource "é\n\nb").starts[((ofSource "é\n\nb").position 3).line - 1]? = some start ∧
        start + ((ofSource "é\n\nb").position 3).column - 1 = 3) ∧
      ((ofSource "é\n\nb").position 3).Before ((ofSource "é\n\nb").position 9) ∧
      (ofSource "é\n\nb").position 3 ≠ (ofSource "é\n\nb").position 9 :=
  have hexact := positions_exact "é\n\nb"
  ⟨by decide, by decide, hexact.1 3 (by decide), hexact.2.1 3 9 (by decide) (by decide),
    hexact.2.2 3 9 (by decide) (by decide) (by decide)⟩

end SourceFront
