import TokimoKvm.ByteStreamProofs

/-! # Lines from a byte stream

    A buffered reader keeps what a read gave it beyond the line that was
    asked for.  However the transport cuts the stream, the lines it hands out
    are those of the stream: `readLine_cut` is the one fact its users need. -/

namespace TokimoBytes

/-- A line up to and with its line feed, and what follows; without a line
    feed, all there is. -/
def cutLine : Bytes → Bytes × Bytes
  | [] => ([], [])
  | b :: bs => if b = 10 then ([10], bs) else (b :: (cutLine bs).1, (cutLine bs).2)

theorem cutLine_line {line : Bytes} (h : (10 : UInt8) ∉ line) (rest : Bytes) :
    cutLine (line ++ 10 :: rest) = (line ++ [10], rest) := by
  induction line with
  | nil => rfl
  | cons b bs ih =>
      have hb : b ≠ 10 := fun heq => h (heq ▸ List.mem_cons_self ..)
      rw [List.cons_append, cutLine, if_neg hb, ih fun hm => h (List.mem_cons_of_mem _ hm)]
      rfl

theorem cutLine_end {bs : Bytes} (h : (10 : UInt8) ∉ bs) : cutLine bs = (bs, []) := by
  induction bs with
  | nil => rfl
  | cons b bs ih =>
      have hb : b ≠ 10 := fun heq => h (heq ▸ List.mem_cons_self ..)
      rw [cutLine, if_neg hb, ih fun hm => h (List.mem_cons_of_mem _ hm)]

/-- A line ends inside the first part, or reaches into the second. -/
theorem cutLine_append (bs more : Bytes) :
    cutLine (bs ++ more) = if 10 ∈ bs then ((cutLine bs).1, (cutLine bs).2 ++ more)
      else (bs ++ (cutLine more).1, (cutLine more).2) := by
  induction bs with
  | nil => rfl
  | cons b bs ih =>
      rw [List.cons_append, cutLine]
      by_cases hb : b = 10
      · rw [if_pos hb, cutLine, if_pos hb, if_pos (by rw [hb]; exact List.mem_cons_self ..)]
      · rw [if_neg hb, ih, cutLine, if_neg hb]
        by_cases hin : (10 : UInt8) ∈ bs
        · rw [if_pos hin, if_pos (List.mem_cons_of_mem _ hin)]
        · have hout : (10 : UInt8) ∉ b :: bs := by
            intro hm
            rcases List.mem_cons.mp hm with heq | hm
            · exact hb heq.symm
            · exact hin hm
          rw [if_neg hin, if_neg hout]
          rfl

/-- No byte is lost or made up, and a line is empty only at the end. -/
theorem cutLine_parts (bs : Bytes) :
    (cutLine bs).1 ++ (cutLine bs).2 = bs ∧ ((cutLine bs).1 = [] ↔ bs = []) := by
  induction bs with
  | nil => exact ⟨rfl, Iff.rfl⟩
  | cons b bs ih =>
      rw [cutLine]
      by_cases hb : b = 10
      · rw [if_pos hb]
        refine ⟨by rw [hb]; rfl, ?_⟩
        constructor
        · intro h; cases h
        · intro h; cases h
      · rw [if_neg hb]
        refine ⟨congrArg (List.cons b) ih.1, ?_⟩
        constructor
        · intro h; cases h
        · intro h; cases h

/-- The lines of a stream, each with its line feed. -/
def lines (bs : Bytes) : List Bytes :=
  if _h : bs = [] then [] else (cutLine bs).1 :: lines (cutLine bs).2
termination_by bs.length
decreasing_by
  obtain ⟨hparts, hempty⟩ := cutLine_parts bs
  have hlen := congrArg List.length hparts
  have hpos := List.length_pos_iff.mpr (mt hempty.mp _h)
  rw [List.length_append] at hlen
  omega

theorem lines_cons {bs : Bytes} (h : (cutLine bs).1 ≠ []) :
    lines bs = (cutLine bs).1 :: lines (cutLine bs).2 := by
  rw [lines, dif_neg (mt (cutLine_parts bs).2.mpr h)]

/-! ## The reader -/

/-- Bytes that were read ahead, and the stream behind them. -/
structure BufReader where
  buffer : Bytes
  source : Source
  deriving DecidableEq, Repr

namespace BufReader

/-- All that is still to be handed out. -/
def coming (r : BufReader) : Bytes := r.buffer ++ r.source.pending

/-- The buffer's size. -/
def capacity : Nat := 8192

/-- Fill the buffer until it holds a line feed or the stream ends, and hand
    out the line. -/
def readLine (r : BufReader) : Bytes × BufReader :=
  if 10 ∈ r.buffer then
    ((cutLine r.buffer).1, { buffer := (cutLine r.buffer).2, source := r.source })
  else if _hg : r.source.grant capacity = 0 then
    (r.buffer, { buffer := [], source := r.source })
  else
    let next : BufReader :=
      { buffer := (r.source.read capacity).1, source := (r.source.read capacity).2 }
    (r.buffer ++ next.readLine.1, next.readLine.2)
termination_by r.source.pending.length
decreasing_by
  have hle := r.source.grant_le_pending capacity
  have hlen : (r.source.read capacity).2.pending.length
      = r.source.pending.length - r.source.grant capacity := List.length_drop
  omega

/-- **CHUNKING IS INVISIBLE**: a line is the first line of what is coming, and
    the rest of it is still to come. -/
theorem readLine_cut (r : BufReader) :
    r.readLine.1 = (cutLine r.coming).1 ∧ r.readLine.2.coming = (cutLine r.coming).2 := by
  induction r using readLine.induct with
  | case1 r hin =>
      rw [readLine, if_pos hin, coming, cutLine_append, if_pos hin]
      exact ⟨rfl, rfl⟩
  | case2 r hin hg =>
      have hnil : r.source.pending = [] := by
        rcases List.eq_nil_or_concat r.source.pending with h | ⟨l, b, h⟩
        · exact h
        · have hpos : 0 < r.source.pending.length := by
            rw [h, List.concat_eq_append, List.length_append]
            exact Nat.succ_pos _
          have := r.source.grant_pos (show 0 < capacity by decide) hpos
          omega
      rw [readLine, if_neg hin, dif_pos hg, coming, hnil, List.append_nil, cutLine_end hin]
      exact ⟨rfl, hnil⟩
  | case3 r hin hg next ih =>
      rw [readLine, if_neg hin, dif_neg hg]
      have hnext : next.coming = r.source.pending := List.take_append_drop ..
      rw [hnext] at ih
      rw [coming, cutLine_append, if_neg hin]
      exact ⟨congrArg (r.buffer ++ ·) ih.1, ih.2⟩

/-- Handing out a line that is not empty uses up some of the stream. -/
theorem readLine_shorter {r : BufReader} (h : r.readLine.1 ≠ []) :
    r.readLine.2.coming.length < r.coming.length := by
  obtain ⟨hline, hrest⟩ := r.readLine_cut
  have hparts := congrArg List.length (cutLine_parts r.coming).1
  rw [List.length_append, ← hline, ← hrest] at hparts
  have hpos := List.length_pos_iff.mpr h
  omega

end BufReader

end TokimoBytes
