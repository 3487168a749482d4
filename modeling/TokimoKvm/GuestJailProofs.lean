import TokimoKvm.AgentCallProofs
import TokimoKvm.MountRunProofs

/-! # A guest stays in its mount

    The agent only makes calls with paths spelled by names, and over a host
    directory without links such calls are the requests of the mount's tree.
    So along any run of a guest's requests nothing outside the directory is
    changed or acted on, whatever names the guest comes up with. -/

namespace TokimoMountTree

open TokimoMachine TokimoBytes TokimoPath TokimoTable TokimoVfsCore TokimoHost TokimoHostFs
  TokimoFileTree TokimoFuseAgent

/-- A name as a guest's kernel sends it: a C string. -/
def NulFree (n : Name) : Prop := n.1.contains 0 = false

variable {fs : HostFs} {r : Loc} {s s₀ : HostState} {v : MountTree} {P : Name → Prop}

/-! ## The names of the tree -/

/-- A change in one place keeps to good names. -/
theorem inPlace_within {ns : List Name} {f : Option (Entry Bytes) → Outcome} (h : Within P v)
    (hf : ∀ e, Within P (f e).2) : Within P (inPlace v ns f).2 := by
  rw [inPlace]
  cases find v ns with
  | there e => exact hf (some e)
  | free => exact hf none
  | lost => exact h
  | blocked => exact h

/-- So does one at an entry. -/
theorem atEntry_within {ns : List Name} {f : Entry Bytes → Outcome} (h : Within P v)
    (hf : ∀ e, Within P (f e).2) : Within P (atEntry v ns f).2 := by
  refine inPlace_within h fun e => ?_
  cases e with
  | none => exact h
  | some e => exact hf e

/-- And one of a file. -/
theorem overFile_within {ns : List Name} {x : Outcome} (h : Within P v) (hx : Within P x.2) :
    Within P (overFile v ns x).2 := by
  refine inPlace_within h fun e => ?_
  cases e with
  | none => exact hx
  | some e =>
      cases e with
      | dir => exact h
      | file b => exact hx

/-- **NO NAME COMES FROM ELSEWHERE**: what a request leaves in the tree has
    the names of the tree and of the request. -/
theorem perform_within {op : Op} (h : Within P v) (hop : ∀ ns ∈ op.places, ∀ n ∈ ns, P n) :
    Within P (perform v op).2 := by
  cases op with
  | stat ns => exact atEntry_within h fun _ => h
  | list ns =>
      refine atEntry_within h fun e => ?_
      cases e with
      | dir => exact h
      | file b => exact h
  | read ns offset len =>
      refine atEntry_within h fun e => ?_
      split
      · exact h
      · cases e with
        | dir =>
            dsimp only
            split
            · exact h
            · exact h
        | file b => exact h
  | write ns offset data =>
      exact overFile_within h (h.put (hop ns (List.mem_cons_self ..)) _)
  | create ns => exact overFile_within h (h.put (hop ns (List.mem_cons_self ..)) _)
  | mkdir ns =>
      refine inPlace_within h fun e => ?_
      cases e with
      | none => exact h.put (hop ns (List.mem_cons_self ..)) _
      | some e => exact h
  | remove ns =>
      refine atEntry_within h fun e => ?_
      cases e with
      | dir => exact h
      | file b => exact h.erase ns
  | rmdir ns =>
      refine atEntry_within h fun e => ?_
      cases e with
      | dir =>
          dsimp only
          split
          · exact h.erase ns
          · exact h
      | file b => exact h
  | rename src dst =>
      -- a rename takes whole names along, below a good place
      refine inPlace_within h fun e => inPlace_within h fun _ => ?_
      cases e with
      | none => exact h
      | some e =>
          dsimp only
          split
          · exact h
          · split
            · exact h.move src (hop dst (List.mem_cons_of_mem _ (List.mem_cons_self ..)))
            · exact h
  | truncate ns size =>
      refine atEntry_within h fun e => ?_
      cases e with
      | dir => exact h
      | file b =>
          dsimp only
          split
          · exact h
          · exact h.put (hop ns (List.mem_cons_self ..)) _

/-- An operation on good names leaves a tree of good names. -/
theorem serve_within {op : Op} (h : Within P v) (hop : ∀ ns ∈ op.places, ∀ n ∈ ns, P n)
    (readOnly : Bool) : Within P (serve readOnly v op).2 := by
  rw [serve]
  split
  · exact h
  · exact perform_within h hop

/-! ## The calls of an agent -/

/-- A path spelled without NUL leads to its names. -/
theorem leads_of_spelled {p : PathBuf} (h : SpelledBy NulFree p) :
    ∃ ns, Leads p ns ∧ ∀ n ∈ ns, NulFree n := by
  obtain ⟨ns, hns, rfl⟩ := h
  exact ⟨ns, ⟨Or.inl (spell_components ns), hns⟩, hns⟩

/-- A call with spelled paths is a request to the tree. -/
theorem asks_of_spelled {call : VfsCall} (h : ∀ p ∈ paths call, SpelledBy NulFree p) :
    ∃ op, Asks call op ∧ ∀ ns ∈ op.places, ∀ n ∈ ns, NulFree n := by
  have hone : ∀ {p : PathBuf}, paths call = [p] →
      ∃ ns, Leads p ns ∧ ∀ m ∈ [ns], ∀ n ∈ m, NulFree n := by
    intro p hp
    obtain ⟨ns, hl, hns⟩ := leads_of_spelled (h p (by rw [hp]; exact List.mem_cons_self ..))
    refine ⟨ns, hl, fun m hm => ?_⟩
    rw [List.mem_singleton.mp hm]
    exact hns
  cases call with
  | stat p =>
      obtain ⟨ns, hl, hns⟩ := hone rfl
      exact ⟨_, .stat hl, hns⟩
  | list p =>
      obtain ⟨ns, hl, hns⟩ := hone rfl
      exact ⟨_, .list hl, hns⟩
  | read p off len =>
      obtain ⟨ns, hl, hns⟩ := hone rfl
      exact ⟨_, .read off len hl, hns⟩
  | write p off data =>
      obtain ⟨ns, hl, hns⟩ := hone rfl
      exact ⟨_, .write off data hl, hns⟩
  | create p mode =>
      obtain ⟨ns, hl, hns⟩ := hone rfl
      exact ⟨_, .create mode hl, hns⟩
  | mkdir p mode =>
      obtain ⟨ns, hl, hns⟩ := hone rfl
      exact ⟨_, .mkdir mode hl, hns⟩
  | remove p =>
      obtain ⟨ns, hl, hns⟩ := hone rfl
      exact ⟨_, .remove hl, hns⟩
  | rmdir p =>
      obtain ⟨ns, hl, hns⟩ := hone rfl
      exact ⟨_, .rmdir hl, hns⟩
  | rename p q =>
      -- the only call with two paths
      obtain ⟨src, hp, hsrc⟩ := leads_of_spelled (h p (List.mem_cons_self ..))
      obtain ⟨dst, hq, hdst⟩ :=
        leads_of_spelled (h q (List.mem_cons_of_mem _ (List.mem_cons_self ..)))
      refine ⟨_, .rename hp hq, fun ns hns => ?_⟩
      rcases List.mem_cons.mp hns with rfl | hns
      · exact hsrc
      · rw [List.mem_singleton.mp hns]
        exact hdst
  | truncate p size =>
      obtain ⟨ns, hl, hns⟩ := hone rfl
      exact ⟨_, .truncate size hl, hns⟩

/-- What a listing of the tree holds. -/
theorem serve_list {readOnly : Bool} {ns : List Name} {at' : Name → Option (Entry Bytes)}
    (h : (serve readOnly v (.list ns)).1 = .ok (.entries at')) : at' = fun n => v (ns ++ [n]) := by
  rw [serve] at h
  split at h
  · cases h
  · have hlist : (list v ns).1 = .ok (.entries at') := h
    rw [list, atEntry, inPlace] at hlist
    cases hf : find v ns with
    | there e =>
        rw [hf] at hlist
        cases e with
        | dir => exact (Answer.entries.inj (Except.ok.inj hlist)).symm
        | file b => cases hlist
    | free => rw [hf] at hlist; cases hlist
    | lost => rw [hf] at hlist; cases hlist
    | blocked => rw [hf] at hlist; cases hlist

/-- A listing shows the tree's entries. -/
theorem shows_entries {es : List DirEntry} {x : Except Fault Answer}
    (h : Shows (.entries (.ok es)) x) : ∃ at', x = .ok (.entries at') ∧ ListOf es at' := by
  cases x with
  | error f => exact nomatch h
  | ok a =>
      cases a with
      | entries at' => exact ⟨at', rfl, h⟩
      | attr e => exact nomatch h
      | bytes d => exact nomatch h
      | count n => exact nomatch h
      | done => exact nomatch h

/-- The host still holds a tree, of names a guest could have sent, and nothing
    happened outside. -/
def Contained (r : Loc) (s₀ s : HostState) : Prop :=
  ∃ v, Follows r s₀ s v ∧ Within NulFree v

/-- **CALLS OF AN AGENT STAY IN THE MOUNT**. -/
theorem mounted_safe (hs : Spelt fs r) (s₀ : HostState) :
    Safe (mounted fs) NulFree (Contained r s₀) := by
  rw [mounted_eq]
  refine ⟨?_, ?_⟩
  · rintro call s hpaths ⟨v, hfol, hv⟩
    obtain ⟨op, hask, hop⟩ := asks_of_spelled hpaths
    exact ⟨_, hfol.trans (invoke_serves hask hs hfol.mounted).2, serve_within hv hop _⟩
  · rintro p s s' entries hp ⟨v, hfol, hv⟩ hlist e he
    obtain ⟨ns, hl, -⟩ := leads_of_spelled hp
    have hshows := (invoke_serves (.list hl) hs hfol.mounted).1
    have hcall : fs.list posix p s = (.ok entries, s') := hlist
    have hreply : ((fs.toVfs posix).invoke s (.list p)).1 = .entries (.ok entries) := by
      show Reply.entries (fs.list posix p s).1 = _
      rw [hcall]
    rw [hreply] at hshows
    obtain ⟨at', hat, l, -, hmem, rfl⟩ := shows_entries hshows
    rw [serve_list hat] at hmem
    obtain ⟨⟨n, d⟩, hc, rfl⟩ := List.mem_map.mp he
    have hthere : v (ns ++ [n]) = some d := (hmem n d).mp hc
    have hn : NulFree n := hv _ (by rw [hthere]; exact Option.some_ne_none _) n
      (List.mem_append.mpr (Or.inr (List.mem_cons_self ..)))
    refine Or.inr (Or.inr ⟨ordinary_toStringLossy n, ?_⟩)
    have hno : (0 : UInt8) ∉ n.1 := by
      have h := hn
      rw [NulFree] at h
      simpa using h
    have hno' : (0 : UInt8) ∉ toStringLossy n.1 := fun h =>
      hno ((mem_toStringLossy (by decide) n.1).mp h)
    show (toStringLossy n.1).contains 0 = false
    simpa using hno'

/-- **A GUEST STAYS IN ITS MOUNT**: let the root be an absolute canonical path
    without NUL other than `/`, of a host without links below it and without
    NUL in a name there, and the process's working directory lie outside of
    it.  Along every run of requests whose names hold no NUL, the host holds a
    tree below the root, and outside it nothing is changed, or acted on. -/
theorem guest_stays_inside (hs : Spelt fs r) (hm : Mounted r s₀ v) (hv : Within NulFree v)
    {st : TokimoFuse × HostState} {tr : List (Except Errno FuseReply)}
    (hrun : Run (serving (mounted fs)) (fun _ req => req.Named NulFree) (.start, s₀) st tr) :
    Contained r s₀ st.2 :=
  (serving_keeps (mounted_safe hs s₀) ⟨v, Follows.keep hm, hv⟩ hrun).2

/-- The example's tree has no NUL in it. -/
theorem chunkTree_nulFree : Within NulFree chunkTree := by
  intro ns hns n hn
  rw [chunkTree] at hns
  split at hns
  · next h =>
      rw [h] at hn
      cases hn
  · split at hns
    · next h =>
        rw [h] at hn
        rw [List.mem_singleton.mp hn]
        rfl
    · exact absurd rfl hns

/-- The guest of a mount with one file makes a directory, and moves the file
    there. -/
theorem chunk_guest_stays_inside : ∃ st : TokimoFuse × HostState,
    nodeAt st.2.tree [⟨[114], rfl⟩, ⟨[100], rfl⟩, ⟨[102], rfl⟩] = some (.file [])
      ∧ Contained [⟨[114], rfl⟩] chunkHost st.2 := by
  have hmk : (FuseRequest.mkdir 1 [100] 0).Named NulFree := by
    intro n hn
    rw [List.mem_singleton.mp hn]
    exact ⟨rfl, rfl⟩
  have hmv : (FuseRequest.rename 1 [102] 2 [102]).Named NulFree := by
    intro n hn
    have hn' : n = [102] := by simpa [FuseRequest.names] using hn
    rw [hn']
    exact ⟨rfl, rfl⟩
  refine ⟨_, ?_, @guest_stays_inside chunkFs [⟨[114], rfl⟩] chunkHost chunkTree
    ⟨by decide, by decide, by decide⟩ chunk_mounted chunkTree_nulFree _ _
    (Run.step (.rename 1 [102] 2 [102]) (Run.step (.mkdir 1 [100] 0) Run.start hmk rfl) hmv rfl)⟩
  decide

end TokimoMountTree
