import TokimoKvm.MountCmdlineProofs

/-! # `tokimo-init` — waiting for the mounts

    For each mount the script starts an agent and looks into `/proc/mounts`
    until the FUSE mount is there, "up to ~15s": once for each word of
    `$(seq 1 75)`, 0.2 s apart.  The loop stands inside the loop over the
    mounts, which has set `IFS` to a comma; the numbers of `seq` are cut at
    commas too, and make one word.  So there is one look, and a mount has to
    be there at it. -/

namespace TokimoCmdline

open TokimoShell

/-! ## The source -/

/-- The values `IFS` has in the script: blanks, or one other character. -/
inductive Ifs where
  | blanks
  | sep (c : Char)
  deriving DecidableEq, Repr

def Ifs.split : Ifs → Text → List Text
  | .blanks => fields
  | .sep c => fieldsAt c

/-- `seq`, one number a line. -/
def seq (first last : Nat) : Text :=
  TokimoShell.printed ((List.range' first (last + 1 - first)).map Nat.repr |>.map String.toList)

/-- What `/proc/mounts` shows while the script runs. -/
structure MountTable where
  /-- The lines at the time of the `k`-th look for the `i`-th mount, the first
      being the look at time 1. -/
  lines : Nat → Nat → List Text
  /-- The line of the FUSE mount that the agent of the `i`-th mount makes. -/
  line : Nat → Text

/-- What the script does that can be seen. -/
inductive InitEvent where
  /-- The agent of a mount is started. -/
  | agent (i : Nat) (tag mpath : Text)
  /-- `tokimo-init: mount $tag -> $mpath` -/
  | mounted (i : Nat) (tag mpath : Text)
  /-- `tokimo-init: mount FAILED $tag -> $mpath` -/
  | failed (i : Nat) (tag mpath : Text)
  /-- The loop goes on at the time of a look. -/
  | goesOn (i : Nat) (k : Nat)
  /-- The script, or the shell. -/
  | scriptOrShell
  deriving DecidableEq, Repr

section Script

variable (p : Patterns) (g : Files) (hit : Text → Text → Bool) (t : MountTable)

/-- An expansion that is not quoted, cut into words. -/
def words (ifs : Ifs) (s : Text) : List Text := expandAll p g (ifs.split s)

/-- `$(seq 1 75)` in the inner `for`. -/
def waitWords (ifs : Ifs) : List Text := words p g ifs (commandSubst (seq 1 75))

/-- `/bin/grep -q " $mpath fuse" /proc/mounts`; `hit` tells which lines a
    pattern matches. -/
def grepMounts (i : Nat) (mpath : Text) (k : Nat) : Bool :=
  (t.lines i k).any (hit (' ' :: mpath ++ " fuse".toList))

/-- The loop that looks once for each word: whether it broke off, and when it
    ended. -/
def pollLoop (found : Nat → Bool) : List Text → Nat → Bool × Nat
  | [], k => (false, k)
  | _ :: ws, k => if found k then (true, k) else pollLoop found ws (k + 1)

/-- One turn of the mount loop, and the `IFS` after it.  The `IFS` of `read`
    is gone when `seq` is expanded. -/
def mountTurn (ifs : Ifs) (i : Nat) (m : Text × Text) : List InitEvent × Ifs :=
  let found := grepMounts hit t i m.2
  let r := pollLoop found (waitWords p g ifs) 1
  (.agent i m.1 m.2
      :: (if r.1 then [.mounted i m.1 m.2] else [])
      ++ (if found r.2 then [] else [.failed i m.1 m.2])
      ++ [.goesOn i r.2],
    .sep ',')

/-- `for pair in $mounts_arg` -/
def mountLoop : List Text → Nat → Ifs → List InitEvent × Ifs
  | [], _, ifs => ([], ifs)
  | pair :: pairs, i, ifs =>
      let turn := mountTurn p g hit t ifs i (readPair pair)
      let rest := mountLoop pairs (i + 1) turn.2
      (turn.1 ++ rest.1, rest.2)

/-- The script from the mounts on. -/
def tokimoInit (mountsArg : Text) : List InitEvent :=
  (if mountsArg = [] then []
   else (mountLoop p g hit t (words p g (.sep ',') mountsArg) 0 (.sep ',')).1)
    ++ [.scriptOrShell]

/-! ## Waiting -/

/-- What the script should do for a mount, going on at the given time. -/
def waited (ks : Nat → Nat) (m : (Text × Text) × Nat) : List InitEvent :=
  [.agent m.2 m.1.1 m.1.2, .mounted m.2 m.1.1 m.1.2, .goesOn m.2 (ks m.2)]

/-- Every mount is reported as mounted, none as failed, and the script goes on
    only when the mount is there. -/
def Waits (mountsArg : Text) : Prop :=
  ∃ ks : Nat → Nat,
    tokimoInit p g hit t mountsArg
      = (initMounts p g mountsArg).zipIdx.flatMap (waited ks) ++ [.scriptOrShell]
    ∧ ∀ m ∈ (initMounts p g mountsArg).zipIdx, t.line m.2 ∈ t.lines m.2 (ks m.2)

/-- The mount is there at the first look, and the look finds it. -/
def AtFirstLook (m : (Text × Text) × Nat) : Prop :=
  t.line m.2 ∈ t.lines m.2 1 ∧ grepMounts hit t m.2 m.1.2 1 = true

/-! ## One word -/

/-- The numbers are digits on lines. -/
theorem seq_digits : (commandSubst (seq 1 75)).all (fun c => c.isDigit || c == '\n') = true := by
  decide +kernel

/-- No other character is among them. -/
theorem seq_without {c : Char} (hc : (c.isDigit || c == '\n') = false) :
    c ∉ commandSubst (seq 1 75) := by
  intro hmem
  have h := List.all_eq_true.mp seq_digits c hmem
  rw [hc] at h
  cases h

/-- A text without separators is one word. -/
theorem fieldsAt_single {c : Char} {s : Text} (hc : c ∉ s) (hs : s ≠ []) :
    fieldsAt c s = [s] := by
  have h := @fieldsAt_intercalate c [s] (List.forall_mem_singleton.mpr ⟨hc, hs⟩)
  rwa [List.intercalate_singleton] at h

/-- **ONE WORD**: under a comma the numbers make one word. -/
theorem waitWords_comma : (waitWords p g (.sep ',')).length = 1 := by
  have hne : commandSubst (seq 1 75) ≠ [] := by decide +kernel
  have hcomma := seq_without (c := ',') (by decide)
  have hstar := seq_without (c := '*') (by decide)
  have hquery := seq_without (c := '?') (by decide)
  have hbracket := seq_without (c := '[') (by decide)
  rw [waitWords]
  generalize commandSubst (seq 1 75) = s at hne hcomma hstar hquery hbracket ⊢
  have hplain := p.plain hstar hquery hbracket
  rw [words, Ifs.split, fieldsAt_single hcomma hne,
    expandAll_plain (List.forall_mem_singleton.mpr hplain) g]
  rfl

/-! ## The loop that looks -/

/-- One word is one look. -/
theorem pollLoop_one (found : Nat → Bool) {ws : List Text} (hws : ws.length = 1) :
    pollLoop found ws 1 = if found 1 then (true, 1) else (false, 2) := by
  obtain ⟨w, rfl⟩ := List.length_eq_one_iff.mp hws
  rfl

/-- **A TURN UNDER THE COMMA**: reported as mounted if the first look finds
    the mount; else nothing is reported, or a failure, 0.2 s later. -/
theorem mountTurn_comma (i : Nat) (m : Text × Text) :
    mountTurn p g hit t (.sep ',') i m
      = (.agent i m.1 m.2
          :: (if grepMounts hit t i m.2 1 then [.mounted i m.1 m.2, .goesOn i 1]
              else if grepMounts hit t i m.2 2 then [.goesOn i 2]
              else [.failed i m.1 m.2, .goesOn i 2]),
        .sep ',') := by
  simp only [mountTurn, pollLoop_one _ (waitWords_comma p g)]
  by_cases h₁ : grepMounts hit t i m.2 1 = true
  · simp [h₁]
  · by_cases h₂ : grepMounts hit t i m.2 2 = true
    · simp [h₁, h₂]
    · simp [h₁, h₂]

/-! ## The loop over the mounts -/

variable {p g hit t}

/-- When each first look finds its mount, each mount is reported at once. -/
theorem mountLoop_first (pairs : List Text) (n : Nat)
    (h : ∀ m ∈ (pairs.map readPair).zipIdx n, grepMounts hit t m.2 m.1.2 1 = true) :
    (mountLoop p g hit t pairs n (.sep ',')).1
      = ((pairs.map readPair).zipIdx n).flatMap (waited fun _ => 1) := by
  induction pairs generalizing n with
  | nil => rfl
  | cons pair pairs ih =>
      rw [List.map_cons, List.zipIdx_cons] at h ⊢
      obtain ⟨hfirst, hrest⟩ := List.forall_mem_cons.mp h
      rw [mountLoop, mountTurn_comma, ih (n + 1) hrest, if_pos hfirst]
      rfl

/-- Only then are all of them reported. -/
theorem mountLoop_only (pairs : List Text) (n : Nat) (ks : Nat → Nat)
    (h : (mountLoop p g hit t pairs n (.sep ',')).1 ++ [.scriptOrShell]
      = ((pairs.map readPair).zipIdx n).flatMap (waited ks) ++ [.scriptOrShell]) :
    ∀ m ∈ (pairs.map readPair).zipIdx n,
      grepMounts hit t m.2 m.1.2 1 = true ∧ ks m.2 = 1 := by
  induction pairs generalizing n with
  | nil => exact List.forall_mem_nil _
  | cons pair pairs ih =>
      rw [List.map_cons, List.zipIdx_cons] at h ⊢
      rw [mountLoop, mountTurn_comma] at h
      by_cases hfirst : grepMounts hit t n (readPair pair).2 1 = true
      · rw [if_pos hfirst] at h
        simp only [List.flatMap_cons, waited, List.cons_append, List.nil_append,
          List.cons.injEq, InitEvent.goesOn.injEq, true_and] at h
        exact List.forall_mem_cons.mpr ⟨⟨hfirst, h.1.symm⟩, ih (n + 1) h.2⟩
      · -- the report is missing
        rw [if_neg hfirst] at h
        by_cases hsecond : grepMounts hit t n (readPair pair).2 2 = true
        · simp [hsecond, waited] at h
        · simp [hsecond, waited] at h

/-- The script is the loop over the mounts, and what comes after. -/
theorem tokimoInit_eq (mountsArg : Text) :
    tokimoInit p g hit t mountsArg
      = (mountLoop p g hit t (words p g (.sep ',') mountsArg) 0 (.sep ',')).1
        ++ [.scriptOrShell] := by
  rw [tokimoInit]
  split
  · rename_i harg
    rw [harg]
    rfl
  · rfl

end Script

/-! ## Does the script wait? -/

/-- **THE WAIT LOOP**: every mount is reported as mounted, none as failed, and
    the script goes on only after each, if and only if each mount is there
    when it is first looked for, and the look finds it. -/
theorem waits_iff (p : Patterns) (g : Files) (hit : Text → Text → Bool) (t : MountTable)
    (mountsArg : Text) :
    Waits p g hit t mountsArg
      ↔ ∀ m ∈ (initMounts p g mountsArg).zipIdx, AtFirstLook hit t m := by
  have hmounts : initMounts p g mountsArg
      = (words p g (.sep ',') mountsArg).map readPair := initMounts_eq p g mountsArg
  rw [Waits, tokimoInit_eq, hmounts]
  constructor
  · rintro ⟨ks, hrun, hthere⟩ m hm
    obtain ⟨hfound, hk⟩ := mountLoop_only _ 0 ks hrun m hm
    exact ⟨hk ▸ hthere m hm, hfound⟩
  · intro h
    refine ⟨fun _ => 1, ?_, fun m hm => (h m hm).1⟩
    rw [mountLoop_first _ 0 fun m hm => (h m hm).2]

/-- Lines that hold the text of a pattern without special characters. -/
def plainHit (pattern line : Text) : Bool := line.tails.any pattern.isPrefixOf

/-- One mount, which appears before the look at time `n`, and stays. -/
def oneMount (n : Nat) : MountTable where
  lines _ k := if n ≤ k then ["tokimo-work /work fuse rw 0 0".toList] else []
  line _ := "tokimo-work /work fuse rw 0 0".toList

/-- **0.4 S ARE TOO LONG**: a mount that the third look would find is reported
    as failed, and the script goes on without it. -/
theorem slow_mount_fails :
    tokimoInit .special .none plainHit (oneMount 3) "work:/work".toList
        = [.agent 0 "work".toList "/work".toList, .failed 0 "work".toList "/work".toList,
            .goesOn 0 2, .scriptOrShell]
      ∧ ¬ Waits .special .none plainHit (oneMount 3) "work:/work".toList := by
  have hrun : tokimoInit .special .none plainHit (oneMount 3) "work:/work".toList
      = [.agent 0 "work".toList "/work".toList, .failed 0 "work".toList "/work".toList,
          .goesOn 0 2, .scriptOrShell] := by
    decide +kernel
  refine ⟨hrun, ?_⟩
  rintro ⟨ks, h, -⟩
  rw [hrun] at h
  have hmounts : (initMounts .special .none "work:/work".toList).zipIdx
      = [(("work".toList, "/work".toList), 0)] := by
    decide +kernel
  rw [hmounts] at h
  simp [waited] at h

end TokimoCmdline
