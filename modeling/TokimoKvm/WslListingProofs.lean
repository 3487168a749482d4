import TokimoKvm.UnicodeTextProofs
import TokimoKvm.WslSandbox

/-! # `ensure_distro` — is the distro there already?

    `wsl --list --quiet` prints one name a line, as UTF-16 or as UTF-8.
    `decode_wsl_text` guesses which from the number of bytes alone: an even
    number is UTF-16.  UTF-16 always has an even number of bytes, and is read
    as it was written.  UTF-8 has an even number as often as not, and is then
    read as UTF-16, in which no name that has a Latin letter is found. -/

namespace TokimoWsl

open TokimoBytes TokimoText

/-! ## The source -/

/-- `decode_wsl_text`. -/
def decodeWslText (bytes : Bytes) : String :=
  if 2 ≤ bytes.length ∧ bytes.length % 2 = 0 then
    String.ofList (fromUtf16Lossy (leUnits bytes))
  else String.ofList (fromUtf8Lossy bytes)

/-- The test `ensure_distro` makes on the listing. -/
def isListed (stdout : Bytes) (name : String) : Bool :=
  (lines (decodeWslText stdout).toList).any fun l => trim l == name.toList

/-- `ensure_distro`, for what `wsl --list --quiet` has printed. -/
def ensureDistro (stdout : Bytes) (name : String) : List WslStep :=
  distroSteps (isListed stdout name)

/-! ## What is printed -/

/-- The encodings `decode_wsl_text` is written for. -/
inductive WslEncoding where
  | utf16le
  | utf8
  deriving DecidableEq, Repr

def WslEncoding.encode : WslEncoding → Text → Bytes
  | .utf16le => encodeUtf16Le
  | .utf8 => encodeUtf8

/-- The name of a distro stands on a line of its own. -/
structure DistroName where
  text : String
  entry : Entry text.toList

/-- What `wsl --list --quiet` prints. -/
def printed (enc : WslEncoding) (e : LineEnd) (names : List DistroName) : Bytes :=
  enc.encode (listing e (names.map (·.text.toList)))

/-- The distro is found exactly when it is listed, and imported exactly when
    it is not. -/
def Found (enc : WslEncoding) (e : LineEnd) (names : List DistroName) (name : String) : Prop :=
  (isListed (printed enc e names) name = true ↔ name ∈ names.map DistroName.text) ∧
    (WslStep.importDistro ∈ ensureDistro (printed enc e names) name
      ↔ name ∉ names.map DistroName.text)

/-- `decode_wsl_text` guesses the encoding right, or has nothing to decode. -/
def ReadAsWritten (enc : WslEncoding) (e : LineEnd) (names : List DistroName) : Prop :=
  names = [] ∨ enc = .utf16le ∨ (printed enc e names).length % 2 = 1

/-! ## The guess -/

section

variable {enc : WslEncoding} {e : LineEnd} {names : List DistroName}

/-- An import is made for what was not found. -/
theorem found_iff {name : String} :
    Found enc e names name
      ↔ (isListed (printed enc e names) name = true ↔ name ∈ names.map DistroName.text) := by
  have himport : WslStep.importDistro ∈ ensureDistro (printed enc e names) name
      ↔ ¬ isListed (printed enc e names) name = true := by
    rw [ensureDistro]
    cases isListed (printed enc e names) name <;> simp [distroSteps]
  rw [Found, himport]
  exact ⟨And.left, fun h => ⟨h, not_congr h⟩⟩

theorem decode_even {bs : Bytes} (hlen : 2 ≤ bs.length) (heven : bs.length % 2 = 0) :
    (decodeWslText bs).toList = fromUtf16Lossy (leUnits bs) := by
  rw [decodeWslText, if_pos ⟨hlen, heven⟩, String.toList_ofList]

theorem decode_utf16 (t : Text) : (decodeWslText (encodeUtf16Le t)).toList = t := by
  have heven := encodeUtf16Le_even t
  have hback := fromUtf16Lossy_encode t
  by_cases hlen : 2 ≤ (encodeUtf16Le t).length
  · rw [decode_even hlen heven, hback]
  · -- nothing was written
    have hnil : encodeUtf16Le t = [] := List.eq_nil_of_length_eq_zero (by omega)
    rw [hnil] at hback ⊢
    rw [← hback]
    rfl

/-- What is guessed right comes back. -/
theorem decode_printed (h : ReadAsWritten enc e names) :
    (decodeWslText (printed enc e names)).toList = listing e (names.map (·.text.toList)) := by
  cases enc with
  | utf16le => exact decode_utf16 _
  | utf8 =>
      rcases h with rfl | h | hodd
      · rfl
      · cases h
      · rw [decodeWslText, if_neg (by omega), String.toList_ofList]
        exact fromUtf8Lossy_encode _

theorem entries (names : List DistroName) :
    ∀ t ∈ names.map (·.text.toList), Entry t := by
  intro t ht
  obtain ⟨n, _, rfl⟩ := List.mem_map.mp ht
  exact n.entry

theorem mem_entries {name : String} :
    name.toList ∈ names.map (·.text.toList) ↔ name ∈ names.map DistroName.text := by
  rw [List.mem_map, List.mem_map]
  constructor
  · rintro ⟨n, hn, h⟩
    exact ⟨n, hn, String.toList_inj.mp h⟩
  · rintro ⟨n, hn, h⟩
    exact ⟨n, hn, congrArg _ h⟩

/-- Where the guess is right, so is the test. -/
theorem found_of_readAsWritten (h : ReadAsWritten enc e names) (name : String) :
    Found enc e names name := by
  rw [found_iff, isListed, decode_printed h, ← mem_entries]
  exact mem_trimmed_lines e (entries names) name.toList

/-! ## A wrong guess -/

/-- A wrong guess is an even number of bytes of UTF-8, two at least. -/
theorem misread_of_not (h : ¬ ReadAsWritten enc e names) :
    enc = .utf8 ∧ names ≠ []
      ∧ (encodeUtf8 (listing e (names.map (·.text.toList)))).length % 2 = 0
      ∧ 2 ≤ (encodeUtf8 (listing e (names.map (·.text.toList)))).length := by
  simp only [ReadAsWritten, not_or] at h
  obtain ⟨hne, henc, hlen⟩ := h
  cases enc with
  | utf16le => exact absurd rfl henc
  | utf8 =>
      have heven : (encodeUtf8 (listing e (names.map (·.text.toList)))).length % 2 = 0 := by
        have : (printed .utf8 e names).length % 2 ≠ 1 := hlen
        rw [printed, WslEncoding.encode] at this
        omega
      refine ⟨rfl, hne, heven, ?_⟩
      obtain ⟨t, ht⟩ := @listing_ends e (names.map (·.text.toList)) (by simpa using hne)
      rw [ht, encodeUtf8_append, List.length_append] at heven ⊢
      have hfeed : (encodeUtf8 ['\n']).length = 1 := rfl
      omega

theorem listing_no_nul (h : ∀ n ∈ names, '\x00' ∉ n.text.toList) :
    '\x00' ∉ listing e (names.map (·.text.toList)) := by
  intro hmem
  obtain ⟨t, ht, hc⟩ := List.mem_flatMap.mp hmem
  obtain ⟨n, hn, rfl⟩ := List.mem_map.mp ht
  rcases List.mem_append.mp hc with hc | hc
  · exact h n hn hc
  · cases e with
    | lf => exact absurd hc (by decide)
    | crlf => exact absurd hc (by decide)

/-- After a wrong guess one text is found, and it has no character below
    U+0100. -/
theorem misread_found (h : ¬ ReadAsWritten enc e names)
    (hnul : ∀ n ∈ names, '\x00' ∉ n.text.toList) :
    ∃ d : Text, d = fromUtf16Lossy (leUnits (encodeUtf8 (listing e (names.map (·.text.toList)))))
      ∧ (∀ c ∈ trim d, 0x100 ≤ c.toNat)
      ∧ ∀ name : String, isListed (printed enc e names) name = true ↔ trim d = name.toList := by
  obtain ⟨rfl, hne, heven, hlen⟩ := misread_of_not h
  obtain ⟨hline, hhigh⟩ := misread_line (listing_no_nul (e := e) hnul) hlen
  refine ⟨_, rfl, fun c hc => hhigh c ((trim_sublist _).subset hc), fun name => ?_⟩
  rw [isListed]
  show ((lines (decodeWslText (encodeUtf8 _)).toList).any _) = true ↔ _
  rw [decode_even hlen heven, hline]
  simp

end

/-! ## Is an existing distro found? -/

/-- **THE DISTRO LOOKUP**: where the encoding is guessed right, every distro
    is found exactly when it is listed.  Names without NUL in a listing that is
    guessed wrong: some name is then misjudged, and a name with a character
    below U+0100 is misjudged exactly when it is listed. -/
theorem lookup_right_iff (enc : WslEncoding) (e : LineEnd) (names : List DistroName) :
    (ReadAsWritten enc e names → ∀ name, Found enc e names name) ∧
    ((∀ n ∈ names, '\x00' ∉ n.text.toList) →
      ((∀ name, Found enc e names name) → ReadAsWritten enc e names) ∧
      ∀ name : String, (∃ c ∈ name.toList, c.toNat < 0x100) →
        (Found enc e names name
          ↔ ReadAsWritten enc e names ∨ name ∉ names.map DistroName.text)) := by
  refine ⟨found_of_readAsWritten, fun hnul => ⟨fun hall => ?_, fun name hlow => ?_⟩⟩
  · refine Classical.byContradiction fun h => ?_
    obtain ⟨d, hd, _, hfound⟩ := misread_found h hnul
    obtain ⟨rfl, hne, heven, _⟩ := misread_of_not h
    obtain ⟨t, ht, hdiff⟩ := misread_differs (by simpa using hne)
      (fun t ht => (entries names t ht).nonempty) (listing_no_nul (e := e) hnul) heven
    obtain ⟨n, hn, rfl⟩ := List.mem_map.mp ht
    have hlisted := (found_iff.mp (hall n.text)).mpr (List.mem_map_of_mem hn)
    exact hdiff (hd ▸ (hfound n.text).mp hlisted)
  · constructor
    · intro hright
      refine or_iff_not_imp_left.mpr fun h hmem => ?_
      obtain ⟨d, _, hhigh, hfound⟩ := misread_found h hnul
      obtain ⟨c, hc, hlt⟩ := hlow
      have htrim := (hfound name).mp ((found_iff.mp hright).mpr hmem)
      exact absurd (hhigh c (htrim ▸ hc)) (Nat.not_le.mpr hlt)
    · intro h
      by_cases hread : ReadAsWritten enc e names
      · exact found_of_readAsWritten hread name
      · obtain ⟨d, _, hhigh, hfound⟩ := misread_found hread hnul
        obtain ⟨c, hc, hlt⟩ := hlow
        refine found_iff.mpr ⟨fun hl => ?_, fun hmem => absurd hmem (h.resolve_left hread)⟩
        exact absurd (hhigh c ((hfound name).mp hl ▸ hc)) (Nat.not_le.mpr hlt)

/-- `Ubuntu` is found in UTF-16; in the six bytes of UTF-8 with a carriage
    return, `Void` is not. -/
theorem lookup_right_ubuntu :
    Found .utf16le .crlf [⟨"Ubuntu", by decide⟩] "Ubuntu"
      ∧ ¬ Found .utf8 .crlf [⟨"Void", by decide⟩] "Void" := by
  have hright := (lookup_right_iff .utf16le .crlf [⟨"Ubuntu", by decide⟩]).1
  have hwrong := (lookup_right_iff .utf8 .crlf [⟨"Void", by decide⟩]).2
  refine ⟨hright (Or.inr (Or.inl rfl)) "Ubuntu", fun hfound => ?_⟩
  have hiff := (hwrong (by decide)).2 "Void" ⟨'V', by decide, by decide⟩
  rcases hiff.mp hfound with (hnil | henc | hodd) | hnot
  · cases hnil
  · cases henc
  · exact absurd hodd (by decide)
  · exact hnot (List.mem_cons_self ..)

/-- A distro with the name `abc`, in UTF-8 with line feeds: four bytes, two
    units, and no `abc` among them. -/
theorem existing_distro_not_found :
    ¬ Found .utf8 .lf [⟨"abc", by decide⟩] "abc" := by
  rw [Found]
  decide

end TokimoWsl
