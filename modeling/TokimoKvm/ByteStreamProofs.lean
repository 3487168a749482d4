import Mathlib

/-! # Byte streams — reading and writing through arbitrary chunks

    A transport hands bytes over in pieces of its own choosing.  A `Source`
    carries the bytes still to come and the cuts the transport will make; a
    `Sink` carries the bytes it has taken and what it will do next.  The
    loops that ask until a buffer is full (`readExact`) or empty (`writeAll`)
    do not see the cuts: that is what this file proves.  A 32-bit length in
    big-endian order completes the vocabulary of length-prefixed frames. -/

namespace TokimoBytes

abbrev Bytes := List UInt8

/-! ## Reading -/

/-- The bytes that will still arrive before end of file, and the largest
    number of bytes, less one, that each coming read is given. -/
structure Source where
  pending : Bytes
  cuts : List Nat
  deriving DecidableEq, Repr

/-- How many bytes one read with room for `n` bytes is given. -/
def Source.grant (src : Source) (n : Nat) : Nat :=
  match src.cuts with
  | [] => min n src.pending.length
  | c :: _ => min n (min (c + 1) src.pending.length)

/-- One read into a buffer of `n` bytes; no bytes mean end of file. -/
def Source.read (src : Source) (n : Nat) : Bytes × Source :=
  (src.pending.take (src.grant n),
    { pending := src.pending.drop (src.grant n), cuts := src.cuts.tail })

/-- A read is never given more than its buffer holds. -/
theorem Source.grant_le (src : Source) (n : Nat) : src.grant n ≤ n := by
  cases hc : src.cuts with
  | nil => rw [grant, hc]; exact Nat.min_le_left _ _
  | cons c cs => rw [grant, hc]; exact Nat.min_le_left _ _

/-- A read is never given more than there is. -/
theorem Source.grant_le_pending (src : Source) (n : Nat) :
    src.grant n ≤ src.pending.length := by
  cases hc : src.cuts with
  | nil => rw [grant, hc]; exact Nat.min_le_right _ _
  | cons c cs =>
      rw [grant, hc]
      exact Nat.le_trans (Nat.min_le_right _ _) (Nat.min_le_right _ _)

/-- Before end of file every read into a non-empty buffer makes progress. -/
theorem Source.grant_pos {src : Source} {n : Nat} (hn : 0 < n)
    (hp : 0 < src.pending.length) : 0 < src.grant n := by
  cases hc : src.cuts with
  | nil => rw [grant, hc]; exact Nat.lt_min.mpr ⟨hn, hp⟩
  | cons c cs =>
      rw [grant, hc]
      exact Nat.lt_min.mpr ⟨hn, Nat.lt_min.mpr ⟨Nat.succ_pos c, hp⟩⟩

/-- Read until `n` bytes have arrived; `none` when the file ends before. -/
def Source.readExact (src : Source) (n : Nat) : Option Bytes × Source :=
  if _hn : n = 0 then (some [], src)
  else if _hg : src.grant n = 0 then (none, src)
  else
    match (src.read n).2.readExact (n - src.grant n) with
    | (some rest, src') => (some ((src.read n).1 ++ rest), src')
    | (none, src') => (none, src')
termination_by n
decreasing_by omega

/-- **CHUNKING IS INVISIBLE**: `readExact` returns the first `n` bytes whatever
    the cuts, and fails exactly when there are not that many. -/
theorem Source.readExact_value (n : Nat) :
    ∀ (src : Source), (src.readExact n).1
      = if n ≤ src.pending.length then some (src.pending.take n) else none := by
  induction n using Nat.strongRecOn with
  | ind n ih =>
      intro src
      rw [readExact]
      by_cases hn : n = 0
      · rw [dif_pos hn, hn, if_pos (Nat.zero_le _), List.take_zero]
      · rw [dif_neg hn]
        by_cases hg : src.grant n = 0
        · rw [dif_pos hg]
          have hp : ¬ 0 < src.pending.length := by
            intro hp
            have := grant_pos (Nat.pos_of_ne_zero hn) hp
            omega
          rw [if_neg (by omega)]
        · rw [dif_neg hg]
          have hle := src.grant_le n
          have hlp := src.grant_le_pending n
          have hrec := ih (n - src.grant n) (by omega) (src.read n).2
          have hlen : (src.read n).2.pending.length
              = src.pending.length - src.grant n := List.length_drop
          rw [hlen] at hrec
          by_cases hfit : n ≤ src.pending.length
          · rw [if_pos (by omega)] at hrec
            rw [if_pos hfit]
            cases hr : (src.read n).2.readExact (n - src.grant n) with
            | mk o src' =>
                rw [hr] at hrec
                subst hrec
                show some (src.pending.take (src.grant n)
                  ++ (src.pending.drop (src.grant n)).take (n - src.grant n))
                  = some (src.pending.take n)
                rw [← List.take_add, Nat.add_sub_cancel' hle]
          · rw [if_neg (by omega)] at hrec
            rw [if_neg hfit]
            cases hr : (src.read n).2.readExact (n - src.grant n) with
            | mk o src' =>
                rw [hr] at hrec
                subst hrec
                rfl

/-- Whatever the cuts, `readExact` consumes `n` bytes, or all there are. -/
theorem Source.readExact_pending (n : Nat) :
    ∀ (src : Source), (src.readExact n).2.pending = src.pending.drop n := by
  induction n using Nat.strongRecOn with
  | ind n ih =>
      intro src
      rw [readExact]
      by_cases hn : n = 0
      · rw [dif_pos hn, hn, List.drop_zero]
      · rw [dif_neg hn]
        by_cases hg : src.grant n = 0
        · rw [dif_pos hg]
          have hp : src.pending.length ≤ n := by
            rcases Nat.eq_zero_or_pos src.pending.length with h0 | hpos
            · omega
            · have := grant_pos (Nat.pos_of_ne_zero hn) hpos
              omega
          have hnil : src.pending = [] := by
            rcases Nat.eq_zero_or_pos src.pending.length with h0 | hpos
            · exact List.length_eq_zero_iff.mp h0
            · have := grant_pos (Nat.pos_of_ne_zero hn) hpos
              omega
          rw [hnil, List.drop_nil]
        · rw [dif_neg hg]
          have hle := src.grant_le n
          have hrec := ih (n - src.grant n) (by omega) (src.read n).2
          have hdrop : (src.read n).2.pending
              = src.pending.drop (src.grant n) := rfl
          rw [hdrop, List.drop_drop, Nat.add_sub_cancel' hle] at hrec
          cases hr : (src.read n).2.readExact (n - src.grant n) with
          | mk o src' =>
              rw [hr] at hrec
              cases o with
              | none => exact hrec
              | some rest => exact hrec

/-! ## Writing -/

/-- What a transport does with one write: take up to `n + 1` bytes, or fail
    with an error of some text. -/
inductive Accept where
  | upTo (n : Nat)
  | fail (text : String)
  deriving DecidableEq, Repr

/-- The bytes a transport has taken, and what it will do with the coming
    writes and flushes; when the script is used up it takes everything. -/
structure Sink where
  written : Bytes
  script : List Accept
  deriving DecidableEq, Repr

/-- A transport that will never refuse a byte. -/
def Sink.Reliable (w : Sink) : Prop := ∀ text, Accept.fail text ∉ w.script

/-- Write until the whole buffer has been taken. -/
def Sink.writeAllWith : List Accept → Bytes → Bytes → Except String Unit × Sink
  | script, out, [] => (.ok (), { written := out, script := script })
  | [], out, b :: bs => (.ok (), { written := out ++ (b :: bs), script := [] })
  | .fail text :: s, out, _ :: _ => (.error text, { written := out, script := s })
  | .upTo n :: s, out, b :: bs =>
      writeAllWith s (out ++ (b :: bs).take (n + 1)) ((b :: bs).drop (n + 1))

/-- `write_all` on a sink. -/
def Sink.writeAll (w : Sink) (bs : Bytes) : Except String Unit × Sink :=
  Sink.writeAllWith w.script w.written bs

/-- `flush` on a sink. -/
def Sink.flush (w : Sink) : Except String Unit × Sink :=
  match w.script with
  | [] => (.ok (), w)
  | .upTo _ :: s => (.ok (), { w with script := s })
  | .fail text :: s => (.error text, { w with script := s })

/-- What a `write_all` leaves: all the bytes on success, some first part of
    them on failure, and a script that is a tail of the old one, behind the
    failure if there was one. -/
theorem Sink.writeAllWith_spec :
    ∀ (script : List Accept) (out bs : Bytes),
      ((writeAllWith script out bs).1 = .ok () →
        (writeAllWith script out bs).2.written = out ++ bs)
      ∧ (∃ pre, pre <+: bs ∧ (writeAllWith script out bs).2.written = out ++ pre)
      ∧ (writeAllWith script out bs).2.script <:+ script
      ∧ (∀ text, (writeAllWith script out bs).1 = .error text →
        .fail text :: (writeAllWith script out bs).2.script <:+ script) := by
  intro script
  -- on the script, which says what becomes of each call
  induction script with
  | nil =>
      intro out bs
      cases bs with
      | nil =>
          rw [writeAllWith]
          exact ⟨fun _ => (List.append_nil _).symm,
            ⟨[], List.nil_prefix, (List.append_nil _).symm⟩,
            List.suffix_refl _, fun _ h => nomatch h⟩
      | cons b bs =>
          rw [writeAllWith]
          exact ⟨fun _ => rfl, ⟨b :: bs, List.prefix_refl _, rfl⟩,
            List.suffix_refl _, fun _ h => nomatch h⟩
  | cons a s ih =>
      intro out bs
      cases bs with
      | nil =>
          rw [writeAllWith]
          exact ⟨fun _ => (List.append_nil _).symm,
            ⟨[], List.nil_prefix, (List.append_nil _).symm⟩,
            List.suffix_refl _, fun _ h => nomatch h⟩
      | cons b bs =>
          cases a with
          | fail text =>
              rw [writeAllWith]
              refine ⟨(fun h => nomatch h),
                ⟨[], List.nil_prefix, (List.append_nil _).symm⟩,
                List.suffix_cons _ _, ?_⟩
              intro text' h
              rw [Except.error.inj h]
          | upTo n =>
              rw [writeAllWith]
              obtain ⟨h1, ⟨pre, hpre, h2⟩, h3, h4⟩ :=
                ih (out ++ (b :: bs).take (n + 1)) ((b :: bs).drop (n + 1))
              refine ⟨?_, ?_, ?_, ?_⟩
              · intro h
                rw [h1 h, List.append_assoc, List.take_append_drop]
              · obtain ⟨tl, htl⟩ := hpre
                refine ⟨(b :: bs).take (n + 1) ++ pre, ⟨tl, ?_⟩, ?_⟩
                · rw [List.append_assoc, htl, List.take_append_drop]
                · rw [h2, List.append_assoc]
              · exact h3.trans (List.suffix_cons _ _)
              · intro text h
                exact (h4 text h).trans (List.suffix_cons _ _)

theorem Sink.writeAll_ok {w : Sink} {bs : Bytes} (h : (w.writeAll bs).1 = .ok ()) :
    (w.writeAll bs).2.written = w.written ++ bs :=
  (writeAllWith_spec w.script w.written bs).1 h

theorem Sink.writeAll_part (w : Sink) (bs : Bytes) :
    ∃ pre, pre <+: bs ∧ (w.writeAll bs).2.written = w.written ++ pre :=
  (writeAllWith_spec w.script w.written bs).2.1

/-- A reliable sink takes the whole buffer and stays reliable. -/
theorem Sink.writeAll_reliable {w : Sink} (hw : w.Reliable) (bs : Bytes) :
    (w.writeAll bs).1 = .ok () ∧ (w.writeAll bs).2.Reliable := by
  obtain ⟨-, -, hsuf, hfail⟩ := writeAllWith_spec w.script w.written bs
  constructor
  · cases h : (w.writeAll bs).1 with
    | ok u => rfl
    | error text =>
        exact absurd ((hfail text h).subset (List.mem_cons_self ..)) (hw text)
  · intro text hmem
    exact hw text (hsuf.subset hmem)

/-- Part of a transport's script is used up, and a failure comes from there. -/
structure Sink.Used (w w' : Sink) (r : Except String Unit) : Prop where
  used : w'.script <:+ w.script
  failed : ∀ text, r = .error text → .fail text :: w'.script <:+ w.script

theorem Sink.writeAll_used (w : Sink) (bs : Bytes) :
    w.Used (w.writeAll bs).2 (w.writeAll bs).1 :=
  ⟨(writeAllWith_spec w.script w.written bs).2.2.1,
    (writeAllWith_spec w.script w.written bs).2.2.2⟩

theorem Sink.flush_used (w : Sink) : w.Used w.flush.2 w.flush.1 := by
  cases hs : w.script with
  | nil =>
      rw [flush, hs]
      exact ⟨List.suffix_refl _, fun _ h => by cases h⟩
  | cons a s =>
      cases a with
      | upTo n =>
          rw [flush, hs]
          refine ⟨?_, fun _ h => by cases h⟩
          rw [hs]
          exact List.suffix_cons _ _
      | fail text =>
          rw [flush, hs]
          refine ⟨?_, fun text' h => ?_⟩
          · rw [hs]
            exact List.suffix_cons _ _
          · rw [hs, Except.error.inj h]

theorem Sink.Used.trans {w w' w'' : Sink} {r r' : Except String Unit} (h : w.Used w' r)
    (h' : w'.Used w'' r') : w.Used w'' r' :=
  ⟨h'.used.trans h.used, fun text he => (h'.failed text he).trans h.used⟩

theorem Sink.flush_written (w : Sink) : w.flush.2.written = w.written := by
  rw [flush]
  split <;> rfl

/-- A reliable sink can be flushed and stays reliable. -/
theorem Sink.flush_reliable {w : Sink} (hw : w.Reliable) :
    w.flush.1 = .ok () ∧ w.flush.2.Reliable := by
  cases hs : w.script with
  | nil =>
      rw [flush, hs]
      exact ⟨rfl, hw⟩
  | cons a s =>
      cases a with
      | upTo n =>
          rw [flush, hs]
          refine ⟨rfl, fun text hmem => hw text ?_⟩
          rw [hs]
          exact List.mem_cons_of_mem _ hmem
      | fail text =>
          refine absurd ?_ (hw text)
          rw [hs]
          exact List.mem_cons_self ..

/-! ## Big-endian 32-bit lengths -/

/-- `u32::to_be_bytes`. -/
def u32ToBe (n : Nat) : Bytes :=
  [UInt8.ofNat (n / 2 ^ 24), UInt8.ofNat (n / 2 ^ 16), UInt8.ofNat (n / 2 ^ 8),
    UInt8.ofNat n]

/-- `u32::from_be_bytes`. -/
def u32FromBe (bs : Bytes) : Nat :=
  bs.foldl (fun acc b => acc * 256 + b.toNat) 0

@[simp]
theorem u32ToBe_length (n : Nat) : (u32ToBe n).length = 4 := rfl

/-- A 32-bit length survives the header. -/
theorem u32FromBe_toBe {n : Nat} (h : n < 2 ^ 32) : u32FromBe (u32ToBe n) = n := by
  have hb : ∀ m : Nat, (UInt8.ofNat m).toNat = m % 256 := fun m => UInt8.toNat_ofNat'
  show (((0 * 256 + (UInt8.ofNat (n / 2 ^ 24)).toNat) * 256
    + (UInt8.ofNat (n / 2 ^ 16)).toNat) * 256
    + (UInt8.ofNat (n / 2 ^ 8)).toNat) * 256 + (UInt8.ofNat n).toNat = n
  rw [hb, hb, hb, hb]
  omega

end TokimoBytes
