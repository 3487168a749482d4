import TokimoKvm.KernelCmdline

/-! # The script and the shell flag on the kernel command line

    The script comes last so that everything to the end of the line is its
    text.  Three things break this: the shell flag that `start` writes after
    it, a second key within the text, and a line end in one of the other
    entries, which gives `sed` an earlier line to print. -/

namespace TokimoCmdline

open TokimoMount TokimoSandbox TokimoShell

variable {σ : Type}

/-! ## What is before the script -/

/-- The parts of the command line without the entries of the script. -/
def partsBefore (config : SandboxConfig σ) (image : ImagePaths) : List String :=
  fixedParts image.rootfs.isSome
    ++ (if (cmdlineMounts config).isEmpty then [] else [mountsPart (cmdlineMounts config)])
    ++ (config.extraCmdline.partition isScript).2

def textBefore (config : SandboxConfig σ) (image : ImagePaths) : Text :=
  (" ".intercalate (partsBefore config image)).toList

/-- The lines that are over before the script begins. -/
def earlierLines (config : SandboxConfig σ) (image : ImagePaths) : List Text :=
  ((textBefore config image).splitOn '\n').dropLast

/-- The words of all parts. -/
def writtenWords (config : SandboxConfig σ) (image : ImagePaths) : List Text :=
  (partsBefore config image ++ (config.extraCmdline.partition isScript).1).flatMap
    fun s => fields s.toList

/-- What `start` appends. -/
def serialText (config : SandboxConfig σ) : Text :=
  if config.interactiveSerial then " tokimo.shell=1".toList else []

theorem startCmdline_eq (config : SandboxConfig σ) (image : ImagePaths) :
    (startCmdline config image).toList
      = (buildCmdline config.extraCmdline (cmdlineMounts config) image.rootfs.isSome).toList
        ++ serialText config := by
  rw [startCmdline, serialText]
  cases config.interactiveSerial with
  | true => exact String.toList_append
  | false => exact (List.append_nil _).symm

theorem partsBefore_ne_nil (config : SandboxConfig σ) (image : ImagePaths) :
    partsBefore config image ≠ [] := by
  rw [partsBefore, fixedParts]
  exact fun h => List.cons_ne_nil _ _ h

/-- The command line of a configuration with one script. -/
theorem startCmdline_script {config : SandboxConfig σ} {text : String}
    (hone : config.extraCmdline.filter isScript = [scriptKey ++ text]) (image : ImagePaths) :
    (startCmdline config image).toList = textBefore config image
      ++ ' ' :: (scriptKey.toList ++ (text.toList ++ serialText config)) := by
  have hpart : (config.extraCmdline.partition isScript).1 = [scriptKey ++ text] := by
    rw [List.partition_eq_filter_filter]
    exact hone
  rw [startCmdline_eq, buildCmdline, hpart, toList_intercalate_space, List.map_append]
  show [' '].intercalate ((partsBefore config image).map String.toList
    ++ [(scriptKey ++ text).toList]) ++ serialText config = _
  rw [intercalate_concat (fun h => partsBefore_ne_nil config image (List.map_eq_nil_iff.mp h)),
    ← toList_intercalate_space, String.toList_append]
  simp only [textBefore, List.append_assoc, List.cons_append]

/-! ## The script -/

theorem linesOf_proc (s : Text) : linesOf (s ++ ['\n']) = s.splitOn '\n' := by
  have hsplit : (s ++ ['\n']).splitOn '\n' = s.splitOn '\n' ++ [[]] :=
    List.splitOn_append_cons_self s []
  rw [linesOf, fieldsAt, hsplit, List.getLast?_concat, if_pos rfl, List.dropLast_concat]

theorem scriptKey_unbordered : Unbordered scriptKey.toList := by decide

theorem scriptKey_ne_nil : scriptKey.toList ≠ [] := List.cons_ne_nil _ _

/-- What `sed` prints: something of the earlier lines that have the key, and
    what is after the last key of the last line. -/
theorem scriptCmd_eq {config : SandboxConfig σ} {text cmdline : String} {image : ImagePaths}
    (hone : config.extraCmdline.filter isScript = [scriptKey ++ text])
    (hline : '\n' ∉ text.toList ++ serialText config)
    (hcmd : cmdline = startCmdline config image) :
    scriptCmd (procCmdline cmdline)
      = commandSubst (printed ((earlierLines config image).filterMap (afterLast scriptKey.toList)
        ++ [(afterLast scriptKey.toList (text.toList ++ serialText config)).getD
          (text.toList ++ serialText config)])) := by
  have hno : '\n' ∉ ' ' :: (scriptKey.toList ++ (text.toList ++ serialText config)) := by
    intro h
    rcases List.mem_cons.mp h with h | h
    · exact absurd h (by decide)
    · rcases List.mem_append.mp h with h | h
      · revert h
        decide
      · exact hline h
  obtain ⟨ls, l, hs, hst⟩ := splitOn_append hno (textBefore config image)
  have hearly : earlierLines config image = ls := by
    rw [earlierLines, hs, List.dropLast_concat]
  have hlast : afterLast scriptKey.toList
      (l ++ ' ' :: (scriptKey.toList ++ (text.toList ++ serialText config)))
        = some ((afterLast scriptKey.toList (text.toList ++ serialText config)).getD
          (text.toList ++ serialText config)) := by
    have h := afterLast_append scriptKey_ne_nil scriptKey_unbordered (l ++ [' '])
      (text.toList ++ serialText config)
    rw [List.append_assoc] at h
    exact h
  rw [scriptCmd, procCmdline, linesOf_proc, hcmd, startCmdline_script hone, hst,
    List.filterMap_append, hearly]
  simp only [List.filterMap_cons, hlast, List.filterMap_nil]

/-- An earlier line has no line end, and so has nothing that is printed of
    it. -/
theorem earlier_output {config : SandboxConfig σ} {image : ImagePaths} {o : Text}
    (h : o ∈ (earlierLines config image).filterMap (afterLast scriptKey.toList)) :
    ∃ l ∈ earlierLines config image, afterLast scriptKey.toList l = some o ∧ '\n' ∉ o := by
  obtain ⟨l, hl, ho⟩ := List.mem_filterMap.mp h
  refine ⟨l, hl, ho, fun hn => ?_⟩
  obtain ⟨x, hx⟩ := afterLast_eq_some ho
  refine mem_splitOn (List.mem_of_mem_dropLast hl) ?_
  rw [hx]
  exact List.mem_append_right _ hn

theorem afterLast_eq_some_nil {l : Text} :
    afterLast scriptKey.toList l = some [] ↔ scriptKey.toList <:+ l := by
  constructor
  · intro h
    obtain ⟨x, hx⟩ := afterLast_eq_some h
    rw [List.append_nil] at hx
    exact ⟨x, hx.symm⟩
  · rintro ⟨x, rfl⟩
    have h := afterLast_append scriptKey_ne_nil scriptKey_unbordered x []
    rw [List.append_nil] at h
    exact h

theorem getD_afterLast_line {key t : Text} (ht : '\n' ∉ t) : '\n' ∉ (afterLast key t).getD t := by
  cases ha : afterLast key t with
  | none => exact ht
  | some r =>
      obtain ⟨x, hx⟩ := afterLast_eq_some ha
      intro hr
      refine ht ?_
      rw [hx]
      exact List.mem_append_right _ hr

/-- What `sed` prints has no line end within a line. -/
theorem outputs_line {config : SandboxConfig σ} {image : ImagePaths} {t : Text} (ht : '\n' ∉ t) :
    ∀ o ∈ (earlierLines config image).filterMap (afterLast scriptKey.toList)
      ++ [(afterLast scriptKey.toList t).getD t], '\n' ∉ o := by
  intro o ho
  rcases List.mem_append.mp ho with ho | ho
  · obtain ⟨l, -, -, hn⟩ := earlier_output ho
    exact hn
  · rw [List.mem_singleton.mp ho]
    exact getD_afterLast_line ht

/-- Without the shell flag, the script is read as it was written when no
    other key is in its way. -/
theorem scriptCmd_off {config : SandboxConfig σ} {text : String} (image : ImagePaths)
    (hone : config.extraCmdline.filter isScript = [scriptKey ++ text])
    (hline : '\n' ∉ text.toList) (hoff : config.interactiveSerial = false) :
    scriptCmd (procCmdline (startCmdline config image)) = text.toList
      ↔ ¬ scriptKey.toList <:+: text.toList
        ∧ ∀ l ∈ earlierLines config image, scriptKey.toList <:+: l →
          text = "" ∧ scriptKey.toList <:+ l := by
  have hserial : serialText config = [] := by
    rw [serialText, hoff]
    rfl
  have hnil : text = "" ↔ text.toList = [] := String.toList_eq_nil_iff.symm
  rw [scriptCmd_eq hone (by rw [hserial, List.append_nil]; exact hline) rfl, hserial,
    List.append_nil]
  rw [commandSubst_printed hline (outputs_line hline)]
  constructor
  · rintro ⟨hhead, htail⟩
    cases hos : (earlierLines config image).filterMap (afterLast scriptKey.toList) with
    | nil =>
        rw [hos] at hhead
        have hhead' : (afterLast scriptKey.toList text.toList).getD text.toList = text.toList :=
          hhead
        constructor
        · -- what follows a key is shorter than the text
          intro hin
          cases ha : afterLast scriptKey.toList text.toList with
          | none => exact (afterLast_eq_none scriptKey_ne_nil).mp ha hin
          | some r =>
              rw [ha, Option.getD_some] at hhead'
              obtain ⟨x, hx⟩ := afterLast_eq_some ha
              have hlen := congrArg List.length hx
              rw [hhead', List.length_append, List.length_append] at hlen
              have hkey : scriptKey.toList.length = 14 := by decide
              omega
        · intro l hl hin
          cases ha : afterLast scriptKey.toList l with
          | none => exact absurd hin ((afterLast_eq_none scriptKey_ne_nil).mp ha)
          | some r =>
              have hmem := List.mem_filterMap.mpr ⟨l, hl, ha⟩
              rw [hos] at hmem
              exact nomatch hmem
    | cons o os =>
        rw [hos] at hhead htail
        have ho : o = text.toList := hhead
        obtain ⟨l₀, -, hl₀, -⟩ := earlier_output (hos ▸ List.mem_cons_self ..)
        have hkey : ¬ scriptKey.toList <:+: text.toList :=
          ho ▸ afterLast_last scriptKey_ne_nil hl₀
        -- the last line prints nothing, so the text is empty
        have hend := htail _ (List.mem_append_right _ (List.mem_singleton.mpr rfl))
        rw [(afterLast_eq_none scriptKey_ne_nil).mpr hkey, Option.getD_none] at hend
        refine ⟨hkey, fun l hl hin => ⟨hnil.mpr hend, ?_⟩⟩
        cases ha : afterLast scriptKey.toList l with
        | none => exact absurd hin ((afterLast_eq_none scriptKey_ne_nil).mp ha)
        | some r =>
            have hmem := List.mem_filterMap.mpr ⟨l, hl, ha⟩
            rw [hos] at hmem
            have hr : r = [] := by
              rcases List.mem_cons.mp hmem with rfl | hmem
              · exact ho.trans hend
              · exact htail r (List.mem_append_left _ hmem)
            exact afterLast_eq_some_nil.mp (hr ▸ ha)
  · rintro ⟨hkey, hearly⟩
    rw [(afterLast_eq_none scriptKey_ne_nil).mpr hkey, Option.getD_none]
    have hempty : ∀ o ∈ (earlierLines config image).filterMap (afterLast scriptKey.toList),
        o = [] ∧ text.toList = [] := by
      intro o ho
      obtain ⟨l, hl, ha⟩ := List.mem_filterMap.mp ho
      have hin : scriptKey.toList <:+: l := by
        obtain ⟨x, hx⟩ := afterLast_eq_some ha
        exact ⟨x, o, hx.symm⟩
      obtain ⟨htext, hsuf⟩ := hearly l hl hin
      rw [afterLast_eq_some_nil.mpr hsuf] at ha
      exact ⟨(Option.some.inj ha).symm, hnil.mp htext⟩
    cases hos : (earlierLines config image).filterMap (afterLast scriptKey.toList) with
    | nil => exact ⟨rfl, fun o ho => nomatch ho⟩
    | cons o os =>
        rw [hos] at hempty
        obtain ⟨ho, htext⟩ := hempty o (List.mem_cons_self ..)
        refine ⟨ho.trans htext.symm, fun x hx => ?_⟩
        rcases List.mem_append.mp hx with hx | hx
        · exact (hempty x (List.mem_cons_of_mem _ hx)).1
        · exact (List.mem_singleton.mp hx).trans htext

/-- With the flag written after it, what is after the last key is never the
    script: the flag would have to be a key. -/
theorem flag_not_key {t : Text} {r : Text}
    (h : (afterLast scriptKey.toList (t ++ " tokimo.shell=1".toList)).getD
      (t ++ " tokimo.shell=1".toList) = r) : r ≠ t ∧ r ≠ [] := by
  cases ha : afterLast scriptKey.toList (t ++ " tokimo.shell=1".toList) with
  | none =>
      rw [ha, Option.getD_none] at h
      constructor
      · intro hr
        have hlen := congrArg List.length (h.trans hr)
        rw [List.length_append] at hlen
        have hflag : " tokimo.shell=1".toList.length = 15 := by decide
        omega
      · intro hr
        exact absurd (List.append_eq_nil_iff.mp (h.trans hr)).2 (by decide)
  | some r' =>
      rw [ha, Option.getD_some] at h
      subst h
      obtain ⟨x, hx⟩ := afterLast_eq_some ha
      constructor
      · rintro rfl
        -- one character is before the key, and it would have to be two
        have hcount : ∀ c : Char, " tokimo.shell=1".toList.count c
            = x.count c + scriptKey.toList.count c := by
          intro c
          have h := congrArg (List.count c) hx
          simp only [List.count_append] at h
          omega
        have hlen : x.length = 1 := by
          have h := congrArg List.length hx
          simp only [List.length_append] at h
          have hflag : " tokimo.shell=1".toList.length = 15 := by decide
          have hkey : scriptKey.toList.length = 14 := by decide
          omega
        obtain ⟨c, rfl⟩ := List.length_eq_one_iff.mp hlen
        have hh := hcount 'h'
        have h1 := hcount '1'
        rw [show " tokimo.shell=1".toList.count 'h' = 1 by decide,
          show scriptKey.toList.count 'h' = 0 by decide, List.count_singleton] at hh
        rw [show " tokimo.shell=1".toList.count '1' = 1 by decide,
          show scriptKey.toList.count '1' = 0 by decide, List.count_singleton] at h1
        have hc : c = 'h' := by
          by_contra hne
          rw [if_neg (by simpa using hne)] at hh
          exact nomatch hh
        rw [hc] at h1
        exact nomatch h1
      · rintro rfl
        rw [List.append_nil] at hx
        have hsuf : scriptKey.toList <:+ " tokimo.shell=1".toList :=
          List.suffix_of_suffix_length_le ⟨x, hx.symm⟩ (List.suffix_append _ _) (by decide)
        revert hsuf
        decide

/-- With the shell flag, the script is never read as it was written. -/
theorem scriptCmd_on {config : SandboxConfig σ} {text : String} (image : ImagePaths)
    (hone : config.extraCmdline.filter isScript = [scriptKey ++ text])
    (hline : '\n' ∉ text.toList) (hon : config.interactiveSerial = true) :
    scriptCmd (procCmdline (startCmdline config image)) ≠ text.toList := by
  have hserial : serialText config = " tokimo.shell=1".toList := by
    rw [serialText, hon]
    rfl
  have hline' : '\n' ∉ text.toList ++ serialText config := by
    rw [hserial]
    intro h
    rcases List.mem_append.mp h with h | h
    · exact hline h
    · revert h
      decide
  have houts : ∀ o ∈ (earlierLines config image).filterMap (afterLast scriptKey.toList)
      ++ [(afterLast scriptKey.toList (text.toList ++ serialText config)).getD
        (text.toList ++ serialText config)], '\n' ∉ o := outputs_line hline'
  rw [scriptCmd_eq hone hline' rfl, Ne, commandSubst_printed hline houts]
  generalize hr : (afterLast scriptKey.toList (text.toList ++ serialText config)).getD
    (text.toList ++ serialText config) = r
  rw [hserial] at hr
  obtain ⟨hne, hnil⟩ := flag_not_key hr
  rintro ⟨hhead, htail⟩
  cases hos : (earlierLines config image).filterMap (afterLast scriptKey.toList) with
  | nil =>
      rw [hos] at hhead
      exact hne hhead
  | cons o os =>
      rw [hos] at htail
      exact hnil (htail r (List.mem_append_right _ (List.mem_singleton.mpr rfl)))

/-! ## The flag -/

theorem foldl_caseWord_shell (ws : List Text) (a : InitArgs) :
    (ws.foldl caseWord a).shellMode = true ↔ a.shellMode = true ∨ shellFlag ∈ ws := by
  induction ws generalizing a with
  | nil => simp
  | cons w ws ih =>
      rw [List.foldl_cons, ih, List.mem_cons]
      by_cases hw : w = shellFlag
      · subst hw
        have hm : isMounts shellFlag = false := by decide
        simp [caseWord, hm]
      · have hs : (caseWord a w).shellMode = a.shellMode := by
          rw [caseWord]
          split
          · rfl
          · rfl
        rw [hs]
        have hne : ¬ shellFlag = w := fun h => hw h.symm
        simp only [hne, false_or]

/-- The words the guest loops over are those of the parts, and the flag. -/
theorem initArgs_eq (p : Patterns) (g : Files) (config : SandboxConfig σ) (image : ImagePaths) :
    initArgs p g (procCmdline (startCmdline config image))
      = (expandAll p g (writtenWords config image
        ++ if config.interactiveSerial then [shellFlag] else [])).foldl caseWord {} := by
  have hparts : fields (buildCmdline config.extraCmdline (cmdlineMounts config)
      image.rootfs.isSome).toList = writtenWords config image := by
    rw [buildCmdline, toList_intercalate_space, fields_intercalate, List.flatMap_map]
    rfl
  have hend : ∀ s : Text, fields (s ++ ['\n']) = fields s := by
    intro s
    rw [fields_append_blank s [] rfl, fields_nil, List.append_nil]
  rw [initArgs, fields_commandSubst, procCmdline, hend, startCmdline_eq, serialText]
  cases config.interactiveSerial with
  | true =>
      rw [if_pos rfl, if_pos rfl, fields_shell, hparts]
  | false =>
      have hf : ¬ false = true := fun h => nomatch h
      rw [if_neg hf, if_neg hf, List.append_nil, List.append_nil, hparts]

/-- **THE SCRIPT AND THE FLAG**: for every configuration with one script, the
    guest reads the script and the flag as they were configured if and only
    if the condition holds, or else the command line has a NUL and no QEMU is
    spawned. -/
theorem script_and_flag_iff (p : Patterns) (g : Files) (config : SandboxConfig σ)
    (image : ImagePaths) (text : String)
    (hone : config.extraCmdline.filter isScript = [scriptKey ++ text])
    (hline : '\n' ∉ text.toList) :
    (∀ cmdline, spawnArg (startCmdline config image) = some cmdline →
        scriptCmd (procCmdline cmdline) = text.toList
          ∧ ((initArgs p g (procCmdline cmdline)).shellMode = true
            ↔ config.interactiveSerial = true))
      ↔ '\x00' ∈ (startCmdline config image).toList
        ∨ (config.interactiveSerial = false
          ∧ ¬ scriptKey.toList <:+: text.toList
          ∧ (∀ l ∈ earlierLines config image, scriptKey.toList <:+: l →
            text = "" ∧ scriptKey.toList <:+ l)
          ∧ shellFlag ∉ expandAll p g (writtenWords config image)) := by
  by_cases hnul : '\x00' ∈ (startCmdline config image).toList
  · constructor
    · intro _
      exact Or.inl hnul
    · intro _ cmdline hspawn
      rw [spawnArg, if_pos hnul] at hspawn
      cases hspawn
  · rw [spawn_iff hnul fun cmdline => scriptCmd (procCmdline cmdline) = text.toList
        ∧ ((initArgs p g (procCmdline cmdline)).shellMode = true
          ↔ config.interactiveSerial = true), or_iff_right hnul, initArgs_eq, foldl_caseWord_shell]
    cases hserial : config.interactiveSerial with
    | true =>
        -- the flag is in the way of the script
        constructor
        · rintro ⟨hscript, -⟩
          exact absurd hscript (scriptCmd_on image hone hline hserial)
        · rintro ⟨hoff, -⟩
          cases hoff
    | false =>
        rw [scriptCmd_off image hone hline hserial]
        simp only [Bool.false_eq_true, if_false, List.append_nil, false_or, iff_false, true_and,
          and_assoc]

def demoImage : ImagePaths := { kernel := .root, initrd := .root, rootfs := none }

/-- A configuration with a script and an extra argument. -/
def demoScript (interactiveSerial : Bool) : SandboxConfig Unit where
  name := "demo"
  extraCmdline := ["tokimo.script=echo hi; ls", "debug"]
  interactiveSerial := interactiveSerial

/-- With the interactive console the flag is read as the end of the script. -/
theorem serial_spoils_script :
    ¬ ∀ cmdline, spawnArg (startCmdline (demoScript true) demoImage) = some cmdline →
      scriptCmd (procCmdline cmdline) = "echo hi; ls".toList
        ∧ ((initArgs .special .none (procCmdline cmdline)).shellMode = true
          ↔ (demoScript true).interactiveSerial = true) := by
  intro h
  have hscript : scriptCmd (procCmdline (startCmdline (demoScript true) demoImage))
      = "echo hi; ls tokimo.shell=1".toList := by
    decide +kernel
  exact absurd (hscript.symm.trans (h _ (by decide +kernel)).1) (by decide)

/-- Without it the script is read as it was written. -/
theorem script_is_read :
    scriptCmd (procCmdline (startCmdline (demoScript false) demoImage)) = "echo hi; ls".toList
      ∧ ((initArgs .special .none
          (procCmdline (startCmdline (demoScript false) demoImage))).shellMode = true
        ↔ (demoScript false).interactiveSerial = true) :=
  (script_and_flag_iff .special .none (demoScript false) demoImage "echo hi; ls"
    (by decide +kernel) (by decide)).mpr (Or.inr
      ⟨rfl, by decide, by decide +kernel, by decide +kernel⟩) _ (by decide +kernel)

end TokimoCmdline
