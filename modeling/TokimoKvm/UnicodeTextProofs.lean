import TokimoKvm.OsPathProofs

/-! # Unicode text — two encodings, their lossy readers, lines and trimming

    A text is a list of Unicode scalar values.  It is written down as UTF-8 or
    as UTF-16 with the low byte first; the readers take any bytes and put
    U+FFFD where nothing is spelled.  `str::lines` and `str::trim` complete
    the vocabulary of a listing: one entry a line, read back as it was
    written as long as no entry holds a line break or begins or ends with
    white space. -/

namespace TokimoText

open TokimoBytes TokimoPath

/-- A Rust string, character by character. -/
abbrev Text := List Char

/-! ## UTF-8 -/

/-- Its bytes. -/
def encodeUtf8 (t : Text) : Bytes := t.flatMap String.utf8EncodeChar

/-- The number a whole UTF-8 sequence spells. -/
def utf8Value : Bytes → Nat
  | [b₀] => b₀.toNat
  | [b₀, b₁] => b₀.toNat % 32 * 64 + b₁.toNat % 64
  | [b₀, b₁, b₂] => b₀.toNat % 16 * 4096 + b₁.toNat % 64 * 64 + b₂.toNat % 64
  | [b₀, b₁, b₂, b₃] =>
      b₀.toNat % 8 * 262144 + b₁.toNat % 64 * 4096 + b₂.toNat % 64 * 64 + b₃.toNat % 64
  | _ => 0xFFFD

/-- `String::from_utf8_lossy`. -/
def fromUtf8Lossy (bs : Bytes) : Text := go bs.length bs
where
  go : Nat → Bytes → Text
    | 0, _ => []
    | _ + 1, [] => []
    | fuel + 1, b :: bs =>
        match utf8Next (b :: bs) with
        | (true, n) => Char.ofNat (utf8Value ((b :: bs).take n)) :: go fuel ((b :: bs).drop n)
        | (false, n) => '\uFFFD' :: go fuel ((b :: bs).drop n)

/-! ## UTF-16, low byte first -/

/-- `char::encode_utf16`: one code unit, or a surrogate pair. -/
def encodeUtf16 (c : Char) : List Nat :=
  if c.toNat < 0x10000 then [c.toNat]
  else [0xD800 + (c.toNat - 0x10000) / 0x400, 0xDC00 + (c.toNat - 0x10000) % 0x400]

/-- A code unit, low byte first. -/
def unitBytes (u : Nat) : Bytes := [UInt8.ofNat (u % 256), UInt8.ofNat (u / 256)]

/-- Its code units in bytes. -/
def encodeUtf16Le (t : Text) : Bytes := t.flatMap fun c => (encodeUtf16 c).flatMap unitBytes

/-- `chunks_exact(2)` and `u16::from_le_bytes`. -/
def leUnits : Bytes → List Nat
  | b₀ :: b₁ :: bs => (b₀.toNat + 256 * b₁.toNat) :: leUnits bs
  | _ => []

/-- `String::from_utf16_lossy`: a surrogate without its partner is U+FFFD. -/
def fromUtf16Lossy : List Nat → Text
  | [] => []
  | [u] => [if u < 0xD800 ∨ 0xDFFF < u then Char.ofNat u else '\uFFFD']
  | u :: v :: us =>
      if u < 0xD800 ∨ 0xDFFF < u then Char.ofNat u :: fromUtf16Lossy (v :: us)
      else if u < 0xDC00 ∧ 0xDC00 ≤ v ∧ v ≤ 0xDFFF then
        Char.ofNat (0x10000 + (u - 0xD800) * 0x400 + (v - 0xDC00)) :: fromUtf16Lossy us
      else '\uFFFD' :: fromUtf16Lossy (v :: us)

/-! ## Lines and white space -/

/-- `char::is_whitespace`. -/
def isWhitespace (c : Char) : Bool :=
  (9 ≤ c.toNat && c.toNat ≤ 13) || c.toNat == 32 || c.toNat == 0x85 || c.toNat == 0xA0
    || c.toNat == 0x1680 || (0x2000 ≤ c.toNat && c.toNat ≤ 0x200A) || c.toNat == 0x2028
    || c.toNat == 0x2029 || c.toNat == 0x202F || c.toNat == 0x205F || c.toNat == 0x3000

/-- `str::trim`. -/
def trim (t : Text) : Text := (t.dropWhile isWhitespace).rdropWhile isWhitespace

/-- `split_inclusive('\n')`. -/
def splitInclusive : Text → List Text
  | [] => []
  | c :: cs =>
      if c = '\n' then [c] :: splitInclusive cs
      else
        match splitInclusive cs with
        | [] => [[c]]
        | l :: ls => (c :: l) :: ls

/-- A piece without its line ending. -/
def stripEnding (l : Text) : Text :=
  if l.getLast? = some '\n' then
    if l.dropLast.getLast? = some '\r' then l.dropLast.dropLast else l.dropLast
  else l

/-- `str::lines`. -/
def lines (t : Text) : List Text := (splitInclusive t).map stripEnding

/-- How a listing ends its lines. -/
inductive LineEnd where
  | lf
  | crlf
  deriving DecidableEq, Repr

/-- The characters at the end of a line. -/
def LineEnd.text : LineEnd → Text
  | .lf => ['\n']
  | .crlf => ['\r', '\n']

/-- One entry a line. -/
def listing (e : LineEnd) (ts : List Text) : Text := ts.flatMap (· ++ e.text)

/-- A text that a listing can hold: not empty, on one line, and without white
    space around it. -/
structure Entry (t : Text) : Prop where
  nonempty : t ≠ []
  oneLine : '\n' ∉ t
  trimmed : trim t = t

instance (t : Text) : Decidable (Entry t) :=
  decidable_of_iff (t ≠ [] ∧ '\n' ∉ t ∧ trim t = t)
    ⟨fun h => ⟨h.1, h.2.1, h.2.2⟩, fun h => ⟨h.1, h.2, h.3⟩⟩

/-! ## UTF-8 is read as it was written -/

/-- A character is no surrogate and has a code point. -/
theorem char_range (c : Char) : c.toNat < 0xD800 ∨ (0xDFFF < c.toNat ∧ c.toNat < 0x110000) :=
  c.valid

/-- A byte keeps a number that fits it. -/
theorem byte_toNat {n : Nat} (h : n < 256) : (UInt8.ofNat n).toNat = n :=
  UInt8.toNat_ofNat_of_lt h

/-- A high byte is not ASCII. -/
theorem not_ascii {b : UInt8} (h : 0x80 ≤ b.toNat) : ¬ b < 0x80 :=
  fun hb => absurd (UInt8.lt_iff_toNat_lt.mp hb) (Nat.not_lt.mpr h)

/-- The lead of three bytes, with what the second may be. -/
theorem utf8Lead_three {b₀ b₁ : UInt8} (h₀ : 0xE0 ≤ b₀.toNat ∧ b₀.toNat ≤ 0xEF)
    (h₁ : 0x80 ≤ b₁.toNat ∧ b₁.toNat ≤ 0xBF) (hlo : b₀.toNat = 0xE0 → 0xA0 ≤ b₁.toNat)
    (hhi : b₀.toNat = 0xED → b₁.toNat ≤ 0x9F) :
    ∃ lo hi, utf8Lead b₀ = some (lo, hi, 3) ∧ lo.toNat ≤ b₁.toNat ∧ b₁.toNat ≤ hi.toNat := by
  simp only [utf8Lead, UInt8.le_iff_toNat_le, ← UInt8.toNat_inj, UInt8.reduceToNat]
  rw [if_neg (by omega)]
  by_cases he0 : b₀.toNat = 0xE0
  · exact ⟨0xA0, 0xBF, if_pos he0, hlo he0, h₁.2⟩
  · rw [if_neg he0]
    by_cases hed : b₀.toNat = 0xED
    · exact ⟨0x80, 0x9F, if_pos hed, h₁.1, hhi hed⟩
    · rw [if_neg hed, if_pos (by omega)]
      exact ⟨0x80, 0xBF, rfl, h₁⟩

/-- The lead of four bytes, with what the second may be. -/
theorem utf8Lead_four {b₀ b₁ : UInt8} (h₀ : 0xF0 ≤ b₀.toNat ∧ b₀.toNat ≤ 0xF4)
    (h₁ : 0x80 ≤ b₁.toNat ∧ b₁.toNat ≤ 0xBF) (hlo : b₀.toNat = 0xF0 → 0x90 ≤ b₁.toNat)
    (hhi : b₀.toNat = 0xF4 → b₁.toNat ≤ 0x8F) :
    ∃ lo hi, utf8Lead b₀ = some (lo, hi, 4) ∧ lo.toNat ≤ b₁.toNat ∧ b₁.toNat ≤ hi.toNat := by
  simp only [utf8Lead, UInt8.le_iff_toNat_le, ← UInt8.toNat_inj, UInt8.reduceToNat]
  rw [if_neg (by omega), if_neg (by omega), if_neg (by omega), if_neg (by omega)]
  by_cases hf0 : b₀.toNat = 0xF0
  · exact ⟨0x90, 0xBF, if_pos hf0, hlo hf0, h₁.2⟩
  · rw [if_neg hf0]
    by_cases hf4 : b₀.toNat = 0xF4
    · rw [if_neg (by omega), if_pos hf4]
      exact ⟨0x80, 0x8F, rfl, h₁.1, hhi hf4⟩
    · rw [if_pos (by omega)]
      exact ⟨0x80, 0xBF, rfl, h₁⟩

/-- Two bytes that make a character are taken together. -/
theorem utf8Next_two {b₀ b₁ : UInt8} (h₀ : 0xC2 ≤ b₀.toNat ∧ b₀.toNat ≤ 0xDF)
    (h₁ : 0x80 ≤ b₁.toNat ∧ b₁.toNat ≤ 0xBF) (bs : Bytes) :
    utf8Next (b₀ :: b₁ :: bs) = (true, 2) := by
  have hlead : utf8Lead b₀ = some (0x80, 0xBF, 2) := by
    simp only [utf8Lead, UInt8.le_iff_toNat_le, UInt8.reduceToNat, if_pos h₀]
  have hb := not_ascii (b := b₀) (by omega)
  simp [utf8Next, hb, hlead, UInt8.le_iff_toNat_le, h₁]

/-- So are three. -/
theorem utf8Next_three {b₀ b₁ b₂ : UInt8} (h₀ : 0xE0 ≤ b₀.toNat ∧ b₀.toNat ≤ 0xEF)
    (h₁ : 0x80 ≤ b₁.toNat ∧ b₁.toNat ≤ 0xBF) (hlo : b₀.toNat = 0xE0 → 0xA0 ≤ b₁.toNat)
    (hhi : b₀.toNat = 0xED → b₁.toNat ≤ 0x9F)
    (h₂ : 0x80 ≤ b₂.toNat ∧ b₂.toNat ≤ 0xBF) (bs : Bytes) :
    utf8Next (b₀ :: b₁ :: b₂ :: bs) = (true, 3) := by
  obtain ⟨lo, hi, hlead, hrange⟩ := utf8Lead_three h₀ h₁ hlo hhi
  have hb := not_ascii (b := b₀) (by omega)
  simp [utf8Next, hb, hlead, utf8Cont, UInt8.le_iff_toNat_le, hrange, h₂]

/-- So are four. -/
theorem utf8Next_four {b₀ b₁ b₂ b₃ : UInt8} (h₀ : 0xF0 ≤ b₀.toNat ∧ b₀.toNat ≤ 0xF4)
    (h₁ : 0x80 ≤ b₁.toNat ∧ b₁.toNat ≤ 0xBF) (hlo : b₀.toNat = 0xF0 → 0x90 ≤ b₁.toNat)
    (hhi : b₀.toNat = 0xF4 → b₁.toNat ≤ 0x8F)
    (h₂ : 0x80 ≤ b₂.toNat ∧ b₂.toNat ≤ 0xBF) (h₃ : 0x80 ≤ b₃.toNat ∧ b₃.toNat ≤ 0xBF)
    (bs : Bytes) :
    utf8Next (b₀ :: b₁ :: b₂ :: b₃ :: bs) = (true, 4) := by
  obtain ⟨lo, hi, hlead, hrange⟩ := utf8Lead_four h₀ h₁ hlo hhi
  have hb := not_ascii (b := b₀) (by omega)
  simp [utf8Next, hb, hlead, utf8Cont, UInt8.le_iff_toNat_le, hrange, h₂, h₃]

/-- What a character is written as is one whole sequence, whatever follows. -/
theorem utf8Next_encode (c : Char) (bs : Bytes) :
    utf8Next (String.utf8EncodeChar c ++ bs) = (true, (String.utf8EncodeChar c).length) := by
  have hc := char_range c
  have hv : c.val.toNat = c.toNat := rfl
  simp only [String.utf8EncodeChar, hv]
  split
  · have hb : UInt8.ofNat c.toNat < 0x80 := by
      rw [UInt8.lt_iff_toNat_lt, byte_toNat (by omega)]
      exact Nat.lt_succ_of_le ‹_›
    exact if_pos hb
  · split
    · refine utf8Next_two ?_ ?_ bs <;> rw [byte_toNat (by omega)] <;> omega
    · split
      · refine utf8Next_three ?_ ?_ ?_ ?_ ?_ bs <;> (repeat rw [byte_toNat (by omega)]) <;> omega
      · refine utf8Next_four ?_ ?_ ?_ ?_ ?_ ?_ bs <;> (repeat rw [byte_toNat (by omega)]) <;>
          omega

/-- The sequence spells the character. -/
theorem utf8Value_encode (c : Char) :
    Char.ofNat (utf8Value (String.utf8EncodeChar c)) = c := by
  have hval : utf8Value (String.utf8EncodeChar c) = c.toNat := by
    have hc := char_range c
    have hv : c.val.toNat = c.toNat := rfl
    simp only [String.utf8EncodeChar, hv]
    repeat' split
    all_goals
      simp only [utf8Value]
      repeat rw [byte_toNat (by omega)]
      try omega
  rw [hval]
  exact Char.ofNat_toNat c

/-- **UTF-8 COMES BACK**: the lossy reader loses nothing of what was written
    as UTF-8. -/
theorem fromUtf8Lossy_encode (t : Text) : fromUtf8Lossy (encodeUtf8 t) = t := by
  have hgo : ∀ fuel, (encodeUtf8 t).length ≤ fuel →
      fromUtf8Lossy.go fuel (encodeUtf8 t) = t := by
    induction t with
    | nil =>
        intro fuel _
        cases fuel <;> rfl
    | cons c t ih =>
        intro fuel hfuel
        have hnext := utf8Next_encode c (encodeUtf8 t)
        have hval := utf8Value_encode c
        have hsplit : encodeUtf8 (c :: t) = String.utf8EncodeChar c ++ encodeUtf8 t := rfl
        rw [hsplit] at hfuel ⊢
        rw [List.length_append] at hfuel
        rcases henc : String.utf8EncodeChar c with _ | ⟨b, bs⟩
        · exact absurd henc String.utf8EncodeChar_ne_nil
        · rw [henc] at hnext hval hfuel
          cases fuel with
          | zero =>
              rw [List.length_cons] at hfuel
              omega
          | succ fuel =>
              have hrest := ih fuel (by rw [List.length_cons] at hfuel; omega)
              rw [List.cons_append] at hnext ⊢
              rw [fromUtf8Lossy.go, hnext]
              show Char.ofNat (utf8Value ((b :: bs ++ _).take (b :: bs).length))
                :: fromUtf8Lossy.go fuel ((b :: bs ++ _).drop (b :: bs).length) = _
              rw [List.take_left, List.drop_left, hval, hrest]
  exact hgo _ (Nat.le_refl _)

/-! ## UTF-16 is read as it was written -/

/-- Code units are read back from their bytes. -/
theorem leUnits_encode (us : List Nat) (h : ∀ u ∈ us, u < 0x10000) (bs : Bytes) :
    leUnits (us.flatMap unitBytes ++ bs) = us ++ leUnits bs := by
  induction us with
  | nil => rfl
  | cons u us ih =>
      have hu := h u (List.mem_cons_self ..)
      have hrest := ih fun v hv => h v (List.mem_cons_of_mem _ hv)
      show (_ + 256 * _) :: leUnits (us.flatMap unitBytes ++ bs) = u :: (us ++ leUnits bs)
      rw [byte_toNat (by omega), byte_toNat (by omega), hrest]
      congr 1
      omega

/-- They fit two bytes each. -/
theorem encodeUtf16_lt (c : Char) : ∀ u ∈ encodeUtf16 c, u < 0x10000 := by
  have hc := char_range c
  intro u hu
  unfold encodeUtf16 at hu
  split at hu
  · rw [List.mem_singleton.mp hu]
    assumption
  · rcases List.mem_cons.mp hu with rfl | hu
    · omega
    · rw [List.mem_singleton.mp hu]
      omega

/-- A unit that is no surrogate stands for itself. -/
theorem fromUtf16Lossy_unit {u : Nat} (hu : u < 0xD800 ∨ 0xDFFF < u) (us : List Nat) :
    fromUtf16Lossy (u :: us) = Char.ofNat u :: fromUtf16Lossy us := by
  cases us with
  | nil => simp only [fromUtf16Lossy, if_pos hu]
  | cons v us => rw [fromUtf16Lossy, if_pos hu]

/-- A character is read back from its code units. -/
theorem fromUtf16Lossy_char (c : Char) (us : List Nat) :
    fromUtf16Lossy (encodeUtf16 c ++ us) = c :: fromUtf16Lossy us := by
  have hc := char_range c
  unfold encodeUtf16
  split
  · have hu : c.toNat < 0xD800 ∨ 0xDFFF < c.toNat := by omega
    exact (fromUtf16Lossy_unit hu us).trans (congrArg (· :: _) (Char.ofNat_toNat c))
  · show fromUtf16Lossy (_ :: _ :: us) = _
    rw [fromUtf16Lossy, if_neg (by omega), if_pos (by omega)]
    have hval : 0x10000 + (0xD800 + (c.toNat - 0x10000) / 0x400 - 0xD800) * 0x400
        + (0xDC00 + (c.toNat - 0x10000) % 0x400 - 0xDC00) = c.toNat := by
      omega
    rw [hval, Char.ofNat_toNat]

/-- A text's bytes make its code units. -/
theorem leUnits_encodeUtf16Le (t : Text) :
    leUnits (encodeUtf16Le t) = t.flatMap encodeUtf16 := by
  have hunits : encodeUtf16Le t = (t.flatMap encodeUtf16).flatMap unitBytes := by
    rw [List.flatMap_assoc]
    rfl
  have hlt : ∀ u ∈ t.flatMap encodeUtf16, u < 0x10000 := by
    intro u hu
    obtain ⟨c, _, hc⟩ := List.mem_flatMap.mp hu
    exact encodeUtf16_lt c u hc
  have h := leUnits_encode _ hlt []
  rw [List.append_nil] at h
  rw [hunits, h]
  exact List.append_nil _

/-- **UTF-16 COMES BACK**: the lossy reader loses nothing of what was written
    as UTF-16. -/
theorem fromUtf16Lossy_encode (t : Text) :
    fromUtf16Lossy (leUnits (encodeUtf16Le t)) = t := by
  rw [leUnits_encodeUtf16Le]
  induction t with
  | nil => rfl
  | cons c t ih => rw [List.flatMap_cons, fromUtf16Lossy_char, ih]

/-- They are an even number. -/
theorem encodeUtf16Le_even (t : Text) : (encodeUtf16Le t).length % 2 = 0 := by
  have hunit : ∀ us : List Nat, (us.flatMap unitBytes).length % 2 = 0 := by
    intro us
    induction us with
    | nil => rfl
    | cons u us ih =>
        rw [List.flatMap_cons, List.length_append]
        show (2 + _) % 2 = 0
        omega
  induction t with
  | nil => rfl
  | cons c t ih =>
      have h : encodeUtf16Le (c :: t) = (encodeUtf16 c).flatMap unitBytes ++ encodeUtf16Le t := rfl
      have hc := hunit (encodeUtf16 c)
      rw [h, List.length_append]
      omega

/-! ## A listing is read line by line -/

/-- A line is cut off behind its `\n`. -/
theorem splitInclusive_line {l : Text} (hl : '\n' ∉ l) (t : Text) :
    splitInclusive (l ++ '\n' :: t) = (l ++ ['\n']) :: splitInclusive t := by
  induction l with
  | nil => rfl
  | cons c l ih =>
      obtain ⟨hc, hrest⟩ := List.ne_and_not_mem_of_not_mem_cons hl
      rw [List.cons_append, splitInclusive, if_neg (Ne.symm hc), ih hrest]
      rfl

/-- The last one may have none. -/
theorem splitInclusive_last {l : Text} (hl : '\n' ∉ l) (hne : l ≠ []) :
    splitInclusive l = [l] := by
  induction l with
  | nil => exact absurd rfl hne
  | cons c l ih =>
      obtain ⟨hc, hrest⟩ := List.ne_and_not_mem_of_not_mem_cons hl
      rw [splitInclusive, if_neg (Ne.symm hc)]
      cases l with
      | nil => rfl
      | cons d l => rw [ih hrest (List.cons_ne_nil d l)]

/-- Nothing is trimmed exactly when nothing is trimmed at either end. -/
theorem trim_self {t : Text} :
    trim t = t ↔ t.dropWhile isWhitespace = t ∧ t.rdropWhile isWhitespace = t := by
  constructor
  · intro h
    have hsuffix := List.dropWhile_suffix (l := t) isWhitespace
    have hprefix := List.rdropWhile_prefix isWhitespace (t.dropWhile isWhitespace)
    have hlen : (trim t).length = t.length := congrArg List.length h
    have hle : (trim t).length ≤ (t.dropWhile isWhitespace).length := hprefix.length_le
    have hleft : t.dropWhile isWhitespace = t :=
      hsuffix.eq_of_length (Nat.le_antisymm hsuffix.length_le (hlen ▸ hle))
    rw [trim, hleft] at h
    exact ⟨hleft, h⟩
  · rintro ⟨hleft, hright⟩
    rw [trim, hleft, hright]

/-- An entry ends with no white space. -/
theorem Entry.last {t : Text} (h : Entry t) {c : Char} (hc : t.getLast? = some c) :
    isWhitespace c = false := by
  have hright := (trim_self.mp h.trimmed).2
  have hne := List.rdropWhile_eq_self_iff.mp hright h.nonempty
  rw [List.getLast?_eq_some_getLast h.nonempty] at hc
  rw [← Option.some.inj hc]
  exact Bool.eq_false_iff.mpr hne

/-- A `\n` goes, if no `\r` stands before it. -/
theorem stripEnding_lf {t : Text} (h : t.getLast? ≠ some '\r') :
    stripEnding (t ++ ['\n']) = t := by
  rw [stripEnding, if_pos List.getLast?_concat, List.dropLast_concat, if_neg h]

/-- With it the `\r` goes. -/
theorem stripEnding_crlf (t : Text) : stripEnding (t ++ ['\r'] ++ ['\n']) = t := by
  rw [stripEnding, if_pos List.getLast?_concat, List.dropLast_concat,
    if_pos List.getLast?_concat, List.dropLast_concat]

/-- **A LISTING COMES BACK**: its lines are its entries. -/
theorem lines_listing (e : LineEnd) {ts : List Text} (h : ∀ t ∈ ts, Entry t) :
    lines (listing e ts) = ts := by
  induction ts with
  | nil => rfl
  | cons t ts ih =>
      have ht := h t (List.mem_cons_self ..)
      have hrest := ih fun u hu => h u (List.mem_cons_of_mem _ hu)
      rw [lines] at hrest ⊢
      cases e with
      | lf =>
          have hcut : listing .lf (t :: ts) = t ++ '\n' :: listing .lf ts :=
            List.append_assoc t ['\n'] _
          have hstrip : stripEnding (t ++ ['\n']) = t :=
            stripEnding_lf fun hr => absurd (ht.last hr) (by decide)
          rw [hcut, splitInclusive_line ht.oneLine, List.map_cons, hrest, hstrip]
      | crlf =>
          have hcut : listing .crlf (t :: ts) = (t ++ ['\r']) ++ '\n' :: listing .crlf ts := by
            simp [listing, LineEnd.text]
          have hline : '\n' ∉ t ++ ['\r'] := by
            rw [List.mem_append, List.mem_singleton]
            rintro (hmem | hmem)
            · exact ht.oneLine hmem
            · exact absurd hmem (by decide)
          rw [hcut, splitInclusive_line hline, List.map_cons, hrest, stripEnding_crlf]

/-- Looking for a text among the trimmed lines of a listing finds the
    entries, and nothing else. -/
theorem mem_trimmed_lines (e : LineEnd) {ts : List Text} (h : ∀ t ∈ ts, Entry t) (t : Text) :
    ((lines (listing e ts)).any fun l => trim l == t) = true ↔ t ∈ ts := by
  rw [lines_listing e h, List.any_eq_true]
  constructor
  · rintro ⟨l, hl, heq⟩
    rw [← eq_of_beq heq, (h l hl).trimmed]
    exact hl
  · intro ht
    exact ⟨t, ht, beq_iff_eq.mpr (h t ht).trimmed⟩

/-! ## UTF-8 read as UTF-16

    Two bytes that are not NUL make a unit from U+0100 on, so no ASCII comes
    out, no line break among it, and fewer bytes are spelled than were
    there. -/

/-- Text without NUL has no zero byte. -/
theorem encodeUtf8_nonzero {t : Text} (h : '\x00' ∉ t) : (0 : UInt8) ∉ encodeUtf8 t := by
  intro hmem
  obtain ⟨c, hc, hb⟩ := List.mem_flatMap.mp hmem
  have hrange := char_range c
  have hpos : c.toNat ≠ 0 := by
    intro hz
    have hnul : c = '\x00' := Char.toNat_inj.mp hz
    exact h (hnul ▸ hc)
  have hv : c.val.toNat = c.toNat := rfl
  have hbyte : ∀ n : Nat, n < 256 → n ≠ 0 → (0 : UInt8) ≠ UInt8.ofNat n := by
    intro n hn hne hz
    have := congrArg UInt8.toNat hz
    rw [byte_toNat hn] at this
    exact hne this.symm
  simp only [String.utf8EncodeChar, hv] at hb
  repeat' split at hb
  all_goals
    repeat' rcases List.mem_cons.mp hb with hb | hb
    all_goals first
      | exact hbyte _ (by omega) (by omega) hb
      | cases hb

/-- Bytes that are not zero make units with a high byte. -/
theorem leUnits_high {bs : Bytes} (h : (0 : UInt8) ∉ bs) :
    ∀ u ∈ leUnits bs, 0x100 ≤ u ∧ u < 0x10000 := by
  induction bs using leUnits.induct with
  | case1 b₀ b₁ bs ih =>
      intro u hu
      have hb₁ : b₁.toNat ≠ 0 := by
        intro hz
        have hb : b₁ = 0 := UInt8.toNat_inj.mp hz
        exact h (hb ▸ List.mem_cons_of_mem _ (List.mem_cons_self ..))
      have h₀ := b₀.toNat_lt
      have h₁ := b₁.toNat_lt
      rcases List.mem_cons.mp hu with rfl | hu
      · omega
      · exact ih (fun hz => h (List.mem_cons_of_mem _ (List.mem_cons_of_mem _ hz))) u hu
  | case2 bs hno =>
      intro u hu
      rw [leUnits] at hu
      · cases hu
      · exact hno

/-- Two bytes make a unit. -/
theorem leUnits_length (bs : Bytes) : (leUnits bs).length = bs.length / 2 := by
  induction bs using leUnits.induct with
  | case1 b₀ b₁ bs ih =>
      simp only [leUnits, List.length_cons, ih]
      omega
  | case2 bs hno =>
      rw [leUnits]
      · rcases bs with _ | ⟨b, _ | ⟨b₁, bs⟩⟩
        · rfl
        · exact (Nat.div_eq_of_lt (Nat.lt_succ_self 1)).symm
        · exact absurd rfl (hno b b₁ bs)
      · exact hno

/-- A code point that is a character is that of it. -/
theorem toNat_ofNat {n : Nat} (h : n < 0xD800 ∨ (0xDFFF < n ∧ n < 0x110000)) :
    (Char.ofNat n).toNat = n := by
  have hvalid : n.isValidChar := h
  rw [Char.ofNat, dif_pos hvalid]
  rfl

/-- Units with a high byte make characters from U+0100 on. -/
theorem fromUtf16Lossy_high {us : List Nat} (h : ∀ u ∈ us, 0x100 ≤ u ∧ u < 0x10000) :
    ∀ c ∈ fromUtf16Lossy us, 0x100 ≤ c.toNat := by
  have hmark : 0x100 ≤ '\uFFFD'.toNat := by decide
  have hunit : ∀ u : Nat, u < 0xD800 ∨ 0xDFFF < u → 0x100 ≤ u ∧ u < 0x10000 →
      0x100 ≤ (Char.ofNat u).toNat := by
    intro u hu hrange
    rw [toNat_ofNat (by omega)]
    exact hrange.1
  induction us using fromUtf16Lossy.induct with
  | case1 => exact List.forall_mem_nil _
  | case2 u =>
      rw [fromUtf16Lossy, List.forall_mem_singleton]
      split
      · exact hunit u ‹_› (h u (List.mem_cons_self ..))
      · exact hmark
  | case3 u v us hu ih =>
      rw [fromUtf16Lossy, if_pos hu, List.forall_mem_cons]
      exact ⟨hunit u hu (h u (List.mem_cons_self ..)),
        ih fun w hw => h w (List.mem_cons_of_mem _ hw)⟩
  | case4 u v us hu hpair ih =>
      rw [fromUtf16Lossy, if_neg hu, if_pos hpair, List.forall_mem_cons]
      refine ⟨?_, ih fun w hw => h w (List.mem_cons_of_mem _ (List.mem_cons_of_mem _ hw))⟩
      rw [toNat_ofNat (by omega)]
      omega
  | case5 u v us hu hpair ih =>
      rw [fromUtf16Lossy, if_neg hu, if_neg hpair, List.forall_mem_cons]
      exact ⟨hmark, ih fun w hw => h w (List.mem_cons_of_mem _ hw)⟩

/-- The reader spells as many units as it was given. -/
theorem fromUtf16Lossy_length {us : List Nat} (h : ∀ u ∈ us, u < 0x10000) :
    ((fromUtf16Lossy us).flatMap encodeUtf16).length = us.length := by
  have hmark : (encodeUtf16 '\uFFFD').length = 1 := by decide
  have hone : ∀ u : Nat, u < 0xD800 ∨ 0xDFFF < u → u < 0x10000 →
      (encodeUtf16 (Char.ofNat u)).length = 1 := by
    intro u hu hlt
    rw [encodeUtf16, toNat_ofNat (by omega), if_pos hlt]
    rfl
  induction us using fromUtf16Lossy.induct with
  | case1 => rfl
  | case2 u =>
      rw [fromUtf16Lossy, List.flatMap_singleton]
      split
      · exact hone u ‹_› (h u (List.mem_cons_self ..))
      · exact hmark
  | case3 u v us hu ih =>
      rw [fromUtf16Lossy, if_pos hu, List.flatMap_cons, List.length_append,
        hone u hu (h u (List.mem_cons_self ..)),
        ih fun w hw => h w (List.mem_cons_of_mem _ hw)]
      exact Nat.add_comm 1 _
  | case4 u v us hu hpair ih =>
      have htwo : (encodeUtf16 (Char.ofNat
          (0x10000 + (u - 0xD800) * 0x400 + (v - 0xDC00)))).length = 2 := by
        rw [encodeUtf16, toNat_ofNat (by omega), if_neg (by omega)]
        rfl
      rw [fromUtf16Lossy, if_neg hu, if_pos hpair, List.flatMap_cons, List.length_append, htwo,
        ih fun w hw => h w (List.mem_cons_of_mem _ (List.mem_cons_of_mem _ hw))]
      exact Nat.add_comm 2 _
  | case5 u v us hu hpair ih =>
      rw [fromUtf16Lossy, if_neg hu, if_neg hpair, List.flatMap_cons, List.length_append, hmark,
        ih fun w hw => h w (List.mem_cons_of_mem _ hw)]
      exact Nat.add_comm 1 _

/-- Outside ASCII, UTF-8 takes at least the room of UTF-16. -/
theorem encodeUtf8_length {t : Text} (h : ∀ c ∈ t, 0x80 ≤ c.toNat) :
    2 * (t.flatMap encodeUtf16).length ≤ (encodeUtf8 t).length := by
  induction t with
  | nil => exact Nat.le_refl _
  | cons c t ih =>
      obtain ⟨hc, hrest⟩ := List.forall_mem_cons.mp h
      have hstep : 2 * (encodeUtf16 c).length ≤ (String.utf8EncodeChar c).length := by
        have hv : c.val.toNat = c.toNat := rfl
        simp only [encodeUtf16, String.utf8EncodeChar, hv]
        repeat' split
        all_goals simp only [List.length_cons, List.length_nil]
        all_goals omega
      have ih := ih hrest
      have hsplit : encodeUtf8 (c :: t) = String.utf8EncodeChar c ++ encodeUtf8 t := rfl
      rw [hsplit, List.flatMap_cons, List.length_append, List.length_append]
      omega

/-- White space has a low byte below all that begin a longer sequence. -/
theorem isWhitespace_low {c : Char} (h : isWhitespace c = true) :
    c.toNat < 0x10000 ∧ c.toNat % 256 < 0xC2 ∧ c.toNat / 256 ≠ 10 := by
  simp only [isWhitespace, Bool.or_eq_true, Bool.and_eq_true, decide_eq_true_eq, beq_iff_eq] at h
  omega

/-- The text does not begin with white space when its first unit cannot. -/
theorem fromUtf16Lossy_head {u : Nat} {us : List Nat} (hu : 0xC2 ≤ u % 256) (hlt : u < 0x10000)
    (hrest : ∀ v ∈ us, v < 0x10000) :
    ∃ c t, fromUtf16Lossy (u :: us) = c :: t ∧ isWhitespace c = false := by
  have hmark : isWhitespace '\uFFFD' = false := by decide
  have hunit : u < 0xD800 ∨ 0xDFFF < u → isWhitespace (Char.ofNat u) = false := by
    intro hs
    refine Bool.eq_false_iff.mpr fun hw => ?_
    have := isWhitespace_low hw
    rw [toNat_ofNat (by omega)] at this
    omega
  by_cases hs : u < 0xD800 ∨ 0xDFFF < u
  · exact ⟨_, _, fromUtf16Lossy_unit hs us, hunit hs⟩
  · cases us with
    | nil => exact ⟨'\uFFFD', [], by rw [fromUtf16Lossy, if_neg hs], hmark⟩
    | cons v us =>
        rw [fromUtf16Lossy, if_neg hs]
        split
        · refine ⟨_, _, rfl, Bool.eq_false_iff.mpr fun hw => ?_⟩
          have := isWhitespace_low hw
          rw [toNat_ofNat (by omega)] at this
          omega
        · exact ⟨_, _, rfl, hmark⟩

/-- A last unit that is no surrogate is the last character. -/
theorem fromUtf16Lossy_last {u : Nat} (hu : u < 0xD800 ∨ 0xDFFF < u) (us : List Nat) :
    fromUtf16Lossy (us ++ [u]) = fromUtf16Lossy us ++ [Char.ofNat u] := by
  have hsingle : fromUtf16Lossy [u] = [Char.ofNat u] := fromUtf16Lossy_unit hu []
  induction us using fromUtf16Lossy.induct with
  | case1 => exact hsingle
  | case2 w =>
      show fromUtf16Lossy [w, u] = _
      simp only [fromUtf16Lossy, if_pos hu]
      split
      · rfl
      · rw [if_neg (by omega)]
        rfl
  | case3 w v us hw ih =>
      show fromUtf16Lossy (w :: v :: (us ++ [u])) = _
      rw [fromUtf16Lossy, if_pos hw, fromUtf16Lossy, if_pos hw]
      exact congrArg _ ih
  | case4 w v us hw hpair ih =>
      show fromUtf16Lossy (w :: v :: (us ++ [u])) = _
      rw [fromUtf16Lossy, if_neg hw, if_pos hpair, ih]
      rw [fromUtf16Lossy, if_neg hw, if_pos hpair]
      rfl
  | case5 w v us hw hpair ih =>
      show fromUtf16Lossy (w :: v :: (us ++ [u])) = _
      rw [fromUtf16Lossy, if_neg hw, if_neg hpair]
      rw [fromUtf16Lossy.eq_def (w :: v :: us)]
      simp only [if_neg hw, if_neg hpair]
      exact congrArg _ ih

/-- A text's bytes, part by part. -/
theorem encodeUtf8_append (s t : Text) : encodeUtf8 (s ++ t) = encodeUtf8 s ++ encodeUtf8 t :=
  List.flatMap_append

/-- Units go on behind an even number of bytes. -/
theorem leUnits_append {bs : Bytes} (h : bs.length % 2 = 0) (cs : Bytes) :
    leUnits (bs ++ cs) = leUnits bs ++ leUnits cs := by
  induction bs using leUnits.induct with
  | case1 b₀ b₁ bs ih =>
      have hlen : bs.length % 2 = 0 := by
        rw [List.length_cons, List.length_cons] at h
        omega
      exact congrArg _ (ih hlen)
  | case2 bs hno =>
      rcases bs with _ | ⟨b, _ | ⟨b₁, bs⟩⟩
      · rfl
      · exact absurd h (Nat.one_ne_zero)
      · exact absurd rfl (hno b b₁ bs)

/-- A character outside ASCII begins with a byte from `0xC2` on. -/
theorem encode_lead {c : Char} (h : 0x80 ≤ c.toNat) :
    ∃ b₀ b₁ bs, String.utf8EncodeChar c = b₀ :: b₁ :: bs ∧ 0xC2 ≤ b₀.toNat := by
  have hc := char_range c
  have hv : c.val.toNat = c.toNat := rfl
  simp only [String.utf8EncodeChar, hv]
  rw [if_neg (by omega)]
  repeat' split
  all_goals
    refine ⟨_, _, _, rfl, ?_⟩
    rw [byte_toNat (by omega)]
    omega

/-- **MISREAD TEXT IS ONE LINE**, and no character of it is below U+0100. -/
theorem misread_line {t : Text} (hnul : '\x00' ∉ t) (hlen : 2 ≤ (encodeUtf8 t).length) :
    lines (fromUtf16Lossy (leUnits (encodeUtf8 t))) = [fromUtf16Lossy (leUnits (encodeUtf8 t))]
      ∧ ∀ c ∈ fromUtf16Lossy (leUnits (encodeUtf8 t)), 0x100 ≤ c.toNat := by
  have hunits := leUnits_high (encodeUtf8_nonzero hnul)
  have hhigh := fromUtf16Lossy_high hunits
  have hcount := fromUtf16Lossy_length fun u hu => (hunits u hu).2
  rw [leUnits_length] at hcount
  generalize fromUtf16Lossy (leUnits (encodeUtf8 t)) = d at hhigh hcount ⊢
  have hne : d ≠ [] := by
    intro hd
    rw [hd] at hcount
    exact absurd hcount (by rw [List.flatMap_nil, List.length_nil]; omega)
  have hbreak : '\n' ∉ d := fun h => absurd (hhigh _ h) (by decide)
  refine ⟨?_, hhigh⟩
  rw [lines, splitInclusive_last hbreak hne, List.map_singleton, stripEnding, if_neg]
  exact fun hlast => hbreak (List.mem_of_getLast? hlast)

/-- What is left of a trimmed text stood in it. -/
theorem trim_sublist (t : Text) : (trim t).Sublist t :=
  (List.rdropWhile_prefix isWhitespace _).sublist.trans
    (List.dropWhile_suffix isWhitespace).sublist

/-- A listing of something ends with a line feed. -/
theorem listing_ends (e : LineEnd) {ts : List Text} (hts : ts ≠ []) :
    ∃ t, listing e ts = t ++ ['\n'] := by
  obtain ⟨us, u, rfl⟩ : ∃ us u, ts = us ++ [u] :=
    ⟨_, _, (List.dropLast_append_getLast hts).symm⟩
  cases e with
  | lf => exact ⟨listing .lf us ++ u, by simp [listing, LineEnd.text]⟩
  | crlf => exact ⟨listing .crlf us ++ u ++ ['\r'], by simp [listing, LineEnd.text]⟩

/-- The last unit of a misread listing holds the line feed, and is no white
    space. -/
theorem misread_last {t : Text} (heven : (encodeUtf8 (t ++ ['\n'])).length % 2 = 0) :
    (fromUtf16Lossy (leUnits (encodeUtf8 (t ++ ['\n'])))).rdropWhile isWhitespace
      = fromUtf16Lossy (leUnits (encodeUtf8 (t ++ ['\n']))) := by
  have hfeed : encodeUtf8 ['\n'] = [10] := by decide
  rw [encodeUtf8_append, hfeed] at heven ⊢
  rw [List.length_append] at heven
  have hodd : (encodeUtf8 t).length % 2 = 1 := by
    have : ([10] : Bytes).length = 1 := rfl
    omega
  have hne : encodeUtf8 t ≠ [] := by
    intro h
    rw [h] at hodd
    cases hodd
  obtain ⟨bs, x, hbs⟩ : ∃ bs x, encodeUtf8 t = bs ++ [x] :=
    ⟨_, _, (List.dropLast_append_getLast hne).symm⟩
  rw [hbs, List.append_assoc]
  have hlen : bs.length % 2 = 0 := by
    rw [hbs, List.length_append] at hodd
    have : [x].length = 1 := rfl
    omega
  have hx := x.toNat_lt
  have hten : (10 : UInt8).toNat = 10 := rfl
  have hunit : leUnits ([x] ++ [10]) = [x.toNat + 256 * 10] := rfl
  rw [leUnits_append hlen, hunit, fromUtf16Lossy_last (by omega)]
  refine List.rdropWhile_concat_neg _ _ _ fun hw => ?_
  have := isWhitespace_low hw
  rw [toNat_ofNat (by omega)] at this
  omega

/-- The first unit of a misread text is no white space when the text begins
    outside ASCII. -/
theorem misread_first {c : Char} {t : Text} (hc : 0x80 ≤ c.toNat)
    (hnul : '\x00' ∉ c :: t) :
    (fromUtf16Lossy (leUnits (encodeUtf8 (c :: t)))).dropWhile isWhitespace
      = fromUtf16Lossy (leUnits (encodeUtf8 (c :: t))) := by
  have hunits := leUnits_high (encodeUtf8_nonzero hnul)
  obtain ⟨b₀, b₁, bs, henc, hlead⟩ := encode_lead hc
  have hbytes : encodeUtf8 (c :: t) = b₀ :: b₁ :: (bs ++ encodeUtf8 t) := by
    show String.utf8EncodeChar c ++ encodeUtf8 t = _
    rw [henc]
    rfl
  rw [hbytes, leUnits] at hunits ⊢
  obtain ⟨hfirst, hrest⟩ := List.forall_mem_cons.mp hunits
  have hb₀ := b₀.toNat_lt
  obtain ⟨d, ds, hd, hw⟩ := fromUtf16Lossy_head (by omega) hfirst.2 fun v hv => (hrest v hv).2
  rw [hd, List.dropWhile_cons, hw]
  rfl

/-- **NO LISTING IS MISREAD AS ITS OWN ENTRIES**: one of them is not what is
    read. -/
theorem misread_differs {e : LineEnd} {ts : List Text} (hts : ts ≠ [])
    (hentries : ∀ t ∈ ts, t ≠ []) (hnul : '\x00' ∉ listing e ts)
    (heven : (encodeUtf8 (listing e ts)).length % 2 = 0) :
    ∃ t ∈ ts, trim (fromUtf16Lossy (leUnits (encodeUtf8 (listing e ts)))) ≠ t := by
  obtain ⟨s, ss, rfl⟩ : ∃ s ss, ts = s :: ss := List.exists_cons_of_ne_nil hts
  refine ⟨s, List.mem_cons_self .., fun hs => ?_⟩
  obtain ⟨c, s', hcs⟩ := List.exists_cons_of_ne_nil (hentries s (List.mem_cons_self ..))
  have hunits := leUnits_high (encodeUtf8_nonzero hnul)
  have hcount := fromUtf16Lossy_length fun u hu => (hunits u hu).2
  rw [leUnits_length] at hcount
  have hhigh := fromUtf16Lossy_high hunits
  have hc : 0x100 ≤ c.toNat := by
    have hmem : c ∈ s := by rw [hcs]; exact List.mem_cons_self ..
    exact hhigh c ((trim_sublist _).subset (by rw [hs]; exact hmem))
  have hsplit : listing e (s :: ss) = s ++ (e.text ++ listing e ss) := by
    rw [listing, List.flatMap_cons, List.append_assoc]
    rfl
  have hcut : listing e (s :: ss) = c :: (s' ++ (e.text ++ listing e ss)) := by
    rw [hsplit, hcs]
    rfl
  obtain ⟨t, ht⟩ := listing_ends e hts
  -- nothing is trimmed, so what is read is the entry itself
  have hleft : (fromUtf16Lossy (leUnits (encodeUtf8 (listing e (s :: ss))))).dropWhile isWhitespace
      = fromUtf16Lossy (leUnits (encodeUtf8 (listing e (s :: ss)))) := by
    rw [hcut] at hnul ⊢
    exact misread_first (by omega) hnul
  have hright :
      (fromUtf16Lossy (leUnits (encodeUtf8 (listing e (s :: ss))))).rdropWhile isWhitespace
      = fromUtf16Lossy (leUnits (encodeUtf8 (listing e (s :: ss)))) := by
    rw [ht] at heven ⊢
    exact misread_last heven
  rw [trim_self.mpr ⟨hleft, hright⟩] at hs
  rw [hs] at hcount hhigh
  -- but the entry takes less room than the listing
  have hroom := encodeUtf8_length fun d hd => Nat.le_trans (by decide) (hhigh d hd)
  have hend : 0 < (encodeUtf8 e.text).length := by
    cases e with
    | lf => exact Nat.succ_pos 0
    | crlf => exact Nat.succ_pos 1
  have hlen : (encodeUtf8 (listing e (s :: ss))).length = (encodeUtf8 s).length
      + ((encodeUtf8 e.text).length + (encodeUtf8 (listing e ss)).length) := by
    rw [hsplit, encodeUtf8_append, encodeUtf8_append, List.length_append, List.length_append]
  omega

end TokimoText
