import TokimoKvm.FuseTableProofs
import TokimoKvm.HostFsProofs

/-! # Directory streams

    `readdir` lists the directory afresh for each page and skips as many
    entries as the last page ended behind.  A stream of pages is therefore
    right as long as no entry that stays gets to the other side of the
    stream's position: then each entry is reported as often as it is listed.
    Removing an entry that was reported, with one left to report, breaks it. -/

namespace TokimoFuseAgent

open TokimoMachine TokimoBytes TokimoPath TokimoTable TokimoVfsCore TokimoHost TokimoHostFs

variable {σ : Type}

/-! ## Streams -/

/-- The names of a directory, as `readdir` has them before it skips any. -/
def listed (vfs : TokimoVfs σ) (p : PathBuf) (s : σ) : List Bytes :=
  match (vfs.list p s).1 with
  | .ok entries => (withDots entries).map Prod.snd
  | .error _ => []

/-- A stream over one directory, beside everything else the agent does. -/
structure Stream (σ : Type) where
  agent : TokimoFuse
  store : σ
  offset : Nat
  finished : Bool

/-- A page with room for an entry and so many more, or any other request. -/
inductive StreamLabel where
  | page (room : Nat)
  | request (req : FuseRequest)

/-- What the directory held before and after a step, and what the step
    reported. -/
structure Seen where
  before : List Bytes
  after : List Bytes
  page : List Bytes
  deriving DecidableEq, Repr

/-- The offset reported with the last entry received. -/
def nextOffset (offset : Nat) (es : List DirReply) : Nat :=
  (es.getLast?.map DirReply.offset).getD offset

/-- The stream over the directory `ino`, whose path is `p`: pages until one is
    empty; a page that fails leaves the stream where it is. -/
def streaming (vfs : TokimoVfs σ) (ino : Nat) (p : PathBuf) :
    Machine (Stream σ) StreamLabel Seen where
  step
  | st, .page room =>
      if st.finished then none
      else
        match readdir vfs ino st.offset (room + 1) (st.agent, st.store) with
        | (.ok es, (a, s)) =>
            some ({ agent := a, store := s, offset := nextOffset st.offset es,
                    finished := es.isEmpty },
              [{ before := listed vfs p st.store, after := listed vfs p s,
                 page := es.map DirReply.name }])
        | (.error _, (a, s)) =>
            some ({ st with agent := a, store := s },
              [{ before := listed vfs p st.store, after := listed vfs p s, page := [] }])
  | st, .request req =>
      some ({ st with
          agent := (serve vfs req (st.agent, st.store)).2.1
          store := (serve vfs req (st.agent, st.store)).2.2 },
        [{ before := listed vfs p st.store
           after := listed vfs p (serve vfs req (st.agent, st.store)).2.2
           page := [] }])

/-- A stream at its beginning. -/
def Stream.opened (a : TokimoFuse) (s : σ) : Stream σ :=
  { agent := a, store := s, offset := 0, finished := false }

def reported (tr : List Seen) : List Bytes := tr.flatMap Seen.page

/-- A name is listed so many times before and after each of the steps. -/
def Steady (n : Bytes) (c : Nat) (tr : List Seen) : Prop :=
  ∀ e ∈ tr, e.before.count n = c ∧ e.after.count n = c

/-- No name that stays gets to the other side of the position `k`. -/
def KeepsPlace (k : Nat) (before after : List Bytes) : Prop :=
  ∀ n, after.count n = before.count n → (after.take k).count n = (before.take k).count n

/-- While the stream is open, a request keeps what stays on its side of the
    stream's position.  (A `Vec` holds fewer entries than a `usize` counts.) -/
def Undisturbed (vfs : TokimoVfs σ) (p : PathBuf) : Stream σ → StreamLabel → Prop
  | st, .page _ => (listed vfs p st.store).length < 2 ^ 64
  | st, .request req =>
      st.finished = false → KeepsPlace st.offset (listed vfs p st.store)
        (listed vfs p (serve vfs req (st.agent, st.store)).2.2)

/-! ## What keeps entries in place -/

/-- New entries behind all others keep the others in place. -/
theorem keepsPlace_append (k : Nat) (before news : List Bytes) :
    KeepsPlace k before (before ++ news) := by
  intro n hn
  rw [List.count_append] at hn
  have hnews : n ∉ news := List.count_eq_zero.mp (by omega)
  have htake : n ∉ news.take (k - before.length) := fun h => hnews (List.mem_of_mem_take h)
  rw [List.take_append, List.count_append, List.count_eq_zero.mpr htake, Nat.add_zero]

/-- **WHICH REMOVALS DISTURB**: those of an entry the stream has passed while
    one is left that it has not. -/
theorem keepsPlace_eraseIdx_iff {k i : Nat} {before : List Bytes} (hnd : before.Nodup)
    (hi : i < before.length) :
    KeepsPlace k before (before.eraseIdx i) ↔ k ≤ i ∨ before.length ≤ k := by
  constructor
  · intro h
    rcases Nat.lt_or_ge i k with hik | hik
    · refine Or.inr (Nat.le_of_not_lt fun hk => ?_)
      -- the entry at the position moves to the side of those passed
      have hsub : List.Sublist (before.eraseIdx i) before := List.eraseIdx_sublist before i
      have hget : (before.eraseIdx i)[k - 1]? = some before[k] := by
        rw [List.getElem?_eraseIdx, if_neg (by omega), Nat.sub_add_cancel (by omega)]
        exact List.getElem?_eq_getElem hk
      have hin : before[k] ∈ (before.eraseIdx i).take k := by
        refine List.mem_of_getElem? (i := k - 1) ?_
        rw [List.getElem?_take_of_lt (by omega), hget]
      have hout : before[k] ∉ before.take k := by
        intro hmem
        obtain ⟨j, hj, heq⟩ := List.mem_take_iff_getElem.mp hmem
        have := (List.Nodup.getElem_inj_iff hnd).mp heq
        omega
      have hone : before.count before[k] = 1 := List.count_eq_one_of_mem hnd (List.getElem_mem _)
      have hone' : (before.eraseIdx i).count before[k] = 1 :=
        List.count_eq_one_of_mem (hnd.sublist hsub) (List.mem_of_mem_take hin)
      have hcount := h before[k] (hone'.trans hone.symm)
      rw [List.count_eq_zero.mpr hout] at hcount
      exact List.count_eq_zero.mp hcount hin
    · exact Or.inl hik
  · rintro (hki | hk) n hn
    · rw [List.take_eraseIdx_eq_take_of_le _ _ _ hki]
    · rw [List.take_of_length_le hk, List.take_of_length_le, hn]
      rw [List.length_eraseIdx_of_lt hi]
      omega

/-! ## One page -/

theorem asUsize_ofNat {k : Nat} (h : k < 2 ^ 64) : asUsize (k : Int) = k := by
  rw [asUsize, Int.emod_eq_of_lt (Int.natCast_nonneg k) (by omega)]
  exact Int.toNat_natCast k

/-- Skipping and cutting a numbered list leaves consecutive numbers. -/
theorem zipIdx_window {α : Type} (l : List α) (k room : Nat) :
    (l.zipIdx.drop k).take room = ((l.drop k).take room).zipIdx k := by
  refine List.ext_getElem? fun j => ?_
  rw [List.getElem?_zipIdx, List.getElem?_take, List.getElem?_take]
  by_cases hj : j < room
  · rw [if_pos hj, if_pos hj, List.getElem?_drop, List.getElem?_drop, List.getElem?_zipIdx,
      Nat.zero_add]
  · rw [if_neg hj, if_neg hj]
    rfl

/-- **WHAT A PAGE REPORTS**: the names of the fresh listing from the offset
    on, and where to go on. -/
theorem readdir_spec {vfs : TokimoVfs σ} {a : TokimoFuse} (hw : a.Wf) {ino : Nat} {p : PathBuf}
    (hp : a.pathFor ino = some p) (s : σ) {k : Nat} (hk : k < 2 ^ 64) (room : Nat) :
    (∃ es a', readdir vfs ino k room (a, s) = (.ok es, (a', (vfs.list p s).2)) ∧ Grown a a'
        ∧ es.map DirReply.name = ((listed vfs p s).drop k).take room
        ∧ nextOffset k es = k + es.length)
      ∨ ∃ e, readdir vfs ino k room (a, s) = (.error e, (a, (vfs.list p s).2)) := by
  have hpath : path (σ := σ) ino (a, s) = (.ok p, (a, s)) := by rw [path, hp]
  rw [readdir, Eff.bind_of_ok hpath, listed]
  cases hl : vfs.list p s with
  | mk r s' =>
      cases r with
      | error e =>
          have hcall : call (vfs.list p) (a, s) = (.error (errno e), (a, s')) := by
            rw [call, hl]
          rw [Eff.bind_of_error hcall]
          exact Or.inr ⟨_, rfl⟩
      | ok entries =>
          have hcall : call (vfs.list p) (a, s) = (.ok entries, (a, s')) := by rw [call, hl]
          obtain ⟨es, a', h1, hg, hes, -⟩ :=
            addEntries_spec s' ino p ((withDots entries).zipIdx.drop k) room hw
          rw [Eff.bind_of_ok hcall, asUsize_ofNat hk, h1]
          rw [zipIdx_window] at hes
          have hlen := congrArg List.length hes
          rw [List.length_map, List.length_map, List.length_zipIdx] at hlen
          refine Or.inl ⟨es, a', rfl, hg, ?_, ?_⟩
          · have hnames := congrArg (List.map fun x => x.1.2) hes
            rw [List.map_map, List.map_map] at hnames
            show es.map DirReply.name = (((withDots entries).map Prod.snd).drop k).take room
            rw [← List.map_drop, ← List.map_take,
              ← List.zipIdx_map_fst k (((withDots entries).drop k).take room), List.map_map]
            exact hnames
          -- an entry's offset leads behind it, so the last one leads behind the page
          · have hoffs := congrArg (List.map Prod.snd) hes
            rw [List.map_map, List.map_map] at hoffs
            have hlast := congrArg List.getLast? hoffs
            rw [List.getLast?_map, List.getLast?_map, List.getLast?_zipIdx, ← hlen] at hlast
            rw [nextOffset]
            have hoff : es.getLast?.map DirReply.offset = _ := hlast
            rw [hoff]
            cases hes' : (((withDots entries).drop k).take room).getLast? with
            | none =>
                rw [hlen, List.getLast?_eq_none_iff.mp hes']
                rfl
            | some x =>
                have hpos : 0 < es.length := by
                  rw [hlen]
                  exact List.length_pos_of_mem (List.mem_of_getLast? hes')
                show k + es.length - 1 + 1 = k + es.length
                omega

/-! ## One step -/

/-- How often a name is listed on the passed side of the stream's position;
    an empty page passes everything. -/
def passed (vfs : TokimoVfs σ) (p : PathBuf) (st : Stream σ) (n : Bytes) : Nat :=
  if st.finished then (listed vfs p st.store).count n
  else ((listed vfs p st.store).take st.offset).count n

theorem passed_le (vfs : TokimoVfs σ) (p : PathBuf) (st : Stream σ) (n : Bytes) :
    passed vfs p st n ≤ (listed vfs p st.store).count n := by
  rw [passed]
  by_cases hf : st.finished = true
  · exact Nat.le_of_eq (if_pos hf)
  · rw [if_neg hf]
    exact (List.take_sublist _ _).count_le n

/-- What the stream relies on: the directory's number has its path, and the
    offset is one that a `usize` holds. -/
structure Ready (ino : Nat) (p : PathBuf) (st : Stream σ) : Prop where
  wf : st.agent.Wf
  path : st.agent.pathFor ino = some p
  small : st.offset < 2 ^ 64

variable {vfs : TokimoVfs σ} {ino : Nat} {p : PathBuf}

/-- A page passes what it reports. -/
theorem page_passed {L : List Bytes} {k room m : Nat} {page : List Bytes}
    (hpage : page = (L.drop k).take (room + 1)) (hm : page.length = m) (n : Bytes) :
    (if page.isEmpty then L.count n else (L.take (k + m)).count n)
      = (L.take k).count n + page.count n := by
  by_cases he : page = []
  · -- nothing is left behind the position
    have hnone : L.drop k = [] := by
      rw [he] at hpage
      cases hd : L.drop k with
      | nil => rfl
      | cons x xs =>
          rw [hd, List.take_succ_cons] at hpage
          exact nomatch hpage
    rw [he, List.take_of_length_le (List.drop_eq_nil_iff.mp hnone)]
    rfl
  · have hpre : page <+: L.drop k := by
      rw [hpage]
      exact List.take_prefix _ _
    rw [if_neg (fun h => he (List.isEmpty_iff.mp h)), List.take_add, List.count_append, ← hm,
      ← List.prefix_iff_eq_take.mp hpre]

/-- Any other request leaves the stream ready. -/
theorem request_ready {st st' : Stream σ} {req : FuseRequest} {es : List Seen}
    (hst : Ready ino p st) (hs : (streaming vfs ino p).step st (.request req) = some (st', es)) :
    Ready ino p st' := by
  obtain ⟨rfl, -⟩ := Prod.mk.inj (Option.some.inj hs)
  have hg := (serve_grows vfs req (st.agent, st.store)).1 hst.wf
  exact ⟨hg.wf, hg.paths hst.path, hst.small⟩

/-- **ONE STEP OF A STREAM**: it passes of each name that stays as many as it
    reports. -/
theorem streaming_step (hlook : ∀ s, listed vfs p (vfs.list p s).2 = listed vfs p s)
    {st st' : Stream σ} {l : StreamLabel} {es : List Seen} (hst : Ready ino p st)
    (hc : Undisturbed vfs p st l) (hs : (streaming vfs ino p).step st l = some (st', es)) :
    ∃ e, es = [e] ∧ e.before = listed vfs p st.store ∧ e.after = listed vfs p st'.store
      ∧ Ready ino p st' ∧ (∀ room, l = .page room → e.after = e.before)
      ∧ ∀ n, e.after.count n = e.before.count n →
        passed vfs p st' n = passed vfs p st n + e.page.count n := by
  cases l with
  | request req =>
      have hready := request_ready hst hs
      obtain ⟨rfl, rfl⟩ := Prod.mk.inj (Option.some.inj hs)
      refine ⟨_, rfl, rfl, rfl, hready, (fun _ h => nomatch h), ?_⟩
      intro n hn
      show passed vfs p _ n = passed vfs p st n + 0
      rw [passed, passed]
      cases hf : st.finished with
      | true => exact hn
      | false => exact hc hf n hn
  | page room =>
      have hbound : (listed vfs p st.store).length < 2 ^ 64 := hc
      simp only [streaming] at hs
      cases hf : st.finished with
      | true =>
          rw [hf, if_pos rfl] at hs
          exact nomatch hs
      | false =>
          rw [hf] at hs
          have hlook' := hlook st.store
          rcases readdir_spec hst.wf hst.path st.store hst.small (room + 1) with
            ⟨es', a, hr, hg, hnames, hnext⟩ | ⟨e, hr⟩
          -- a page: the stream goes on behind the last entry of it
          · rw [hr] at hs
            obtain ⟨rfl, rfl⟩ := Prod.mk.inj (Option.some.inj hs)
            have hlen : (es'.map DirReply.name).length = es'.length := List.length_map ..
            refine ⟨_, rfl, rfl, rfl, ⟨hg.wf, hg.paths hst.path, ?_⟩, fun _ _ => hlook', ?_⟩
            · show nextOffset st.offset es' < 2 ^ 64
              rw [hnext]
              have hlen' := congrArg List.length hnames
              rw [hlen, List.length_take, List.length_drop] at hlen'
              have := hst.small
              omega
            · intro n _
              have hp := page_passed hnames hlen n
              rw [List.isEmpty_map] at hp
              rw [passed, passed, hf, if_neg Bool.false_ne_true, ← hp]
              show (if es'.isEmpty then (listed vfs p (vfs.list p st.store).2).count n
                else ((listed vfs p (vfs.list p st.store).2).take
                  (nextOffset st.offset es')).count n) = _
              rw [hlook', hnext]
          · rw [hr] at hs
            obtain ⟨rfl, rfl⟩ := Prod.mk.inj (Option.some.inj hs)
            refine ⟨_, rfl, rfl, rfl, ⟨hst.wf, hst.path, hst.small⟩, fun _ _ => hlook', ?_⟩
            intro n _
            show passed vfs p _ n = passed vfs p st n + 0
            rw [passed, passed, hf]
            show ((listed vfs p (vfs.list p st.store).2).take st.offset).count n = _
            rw [hlook']
            rfl

/-! ## Runs of a stream -/

theorem reported_concat (tr : List Seen) (e : Seen) (n : Bytes) :
    (reported (tr ++ [e])).count n = (reported tr).count n + e.page.count n := by
  rw [reported, List.flatMap_append, List.count_append, List.flatMap_singleton]
  rfl

theorem Steady.concat {n : Bytes} {c : Nat} {tr : List Seen} {e : Seen}
    (h : Steady n c (tr ++ [e])) :
    Steady n c tr ∧ e.before.count n = c ∧ e.after.count n = c :=
  ⟨fun e' he' => h e' (List.mem_append_left _ he'),
    h e (List.mem_append_right _ (List.mem_singleton_self e))⟩

/-- What holds along a run of the stream.  A stretch of it that a name is
    listed through has reported it no more often than the stream has passed
    it, and the whole of it exactly as often. -/
structure StreamInv (vfs : TokimoVfs σ) (ino : Nat) (p : PathBuf) (st : Stream σ)
    (tr : List Seen) : Prop where
  ready : Ready ino p st
  begun : tr = [] → st.finished = false
  now : ∀ n c seg, seg <:+ tr → seg ≠ [] → Steady n c seg →
    (listed vfs p st.store).count n = c ∧ (reported seg).count n ≤ passed vfs p st n
  stretch : ∀ n c seg, seg <:+: tr → Steady n c seg → (reported seg).count n ≤ c
  whole : ∀ n c, Steady n c tr → (reported tr).count n = passed vfs p st n

theorem streamInv_step (hlook : ∀ s, listed vfs p (vfs.list p s).2 = listed vfs p s)
    {st st' : Stream σ} {tr : List Seen} {l : StreamLabel} {es : List Seen}
    (hinv : StreamInv vfs ino p st tr) (hc : Undisturbed vfs p st l)
    (hs : (streaming vfs ino p).step st l = some (st', es)) :
    StreamInv vfs ino p st' (tr ++ es) := by
  obtain ⟨e, rfl, -, hafter, hready, -, hpass⟩ := streaming_step hlook hinv.ready hc hs
  have hnow : ∀ n c seg, seg <:+ tr ++ [e] → seg ≠ [] → Steady n c seg →
      (listed vfs p st'.store).count n = c ∧ (reported seg).count n ≤ passed vfs p st' n := by
    intro n c seg hseg hne hsteady
    rcases List.suffix_concat_iff.mp hseg with rfl | ⟨seg, rfl, hsuf⟩
    · exact absurd rfl hne
    · obtain ⟨hold, h1, h2⟩ := hsteady.concat
      refine ⟨by rw [← hafter]; exact h2, ?_⟩
      rw [reported_concat, hpass n (h2.trans h1.symm)]
      -- the stretch up to the last step, which may be empty
      have hle : (reported seg).count n ≤ passed vfs p st n := by
        by_cases hnil : seg = []
        · rw [hnil]
          exact Nat.zero_le _
        · exact (hinv.now n c seg hsuf hnil hold).2
      omega
  refine ⟨hready, fun h => ?_, hnow, ?_, ?_⟩
  · exact absurd h (by simp)
  · intro n c seg hseg hsteady
    rcases List.infix_concat_iff.mp hseg with hsuf | hin
    · by_cases hnil : seg = []
      · rw [hnil]
        exact Nat.zero_le _
      · obtain ⟨hcount, hle⟩ := hnow n c seg hsuf hnil hsteady
        have := passed_le vfs p st' n
        omega
    · exact hinv.stretch n c seg hin hsteady
  · intro n c hsteady
    obtain ⟨hold, h1, h2⟩ := hsteady.concat
    rw [reported_concat, hpass n (h2.trans h1.symm), hinv.whole n c hold]

theorem stream_inv {s₀ s : σ} {a : TokimoFuse} {tr₀ : List (Except Errno FuseReply)}
    (h0 : Run (serving vfs) always (TokimoFuse.start, s₀) (a, s) tr₀)
    (hp : a.pathFor ino = some p)
    (hlook : ∀ s, listed vfs p (vfs.list p s).2 = listed vfs p s)
    {st : Stream σ} {tr : List Seen}
    (hr : Run (streaming vfs ino p) (Undisturbed vfs p) (.opened a s) st tr) :
    StreamInv vfs ino p st tr := by
  refine Run.invariant (I := StreamInv vfs ino p) ?_ ?_ hr
  · refine ⟨⟨serving_wf h0, hp, Nat.two_pow_pos 64⟩, fun _ => rfl, ?_, ?_, ?_⟩
    · intro n c seg hseg hne _
      exact absurd (List.suffix_nil.mp hseg) hne
    · intro n c seg hseg _
      rw [List.infix_nil.mp hseg]
      exact Nat.zero_le _
    · intro n c _
      rfl
  · intro st tr l st' es hinv hc hs
    exact streamInv_step hlook hinv hc hs

/-- **STREAMS REPORT EVERYTHING ONCE**: from any state of the agent, in any
    run that keeps what stays on its side of the position, no stretch that a
    name is listed through reports it more often than it is listed, and a
    stream that has finished has reported what was there all the time exactly
    as often as it was listed. -/
theorem streams_report_once {s₀ s : σ} {a : TokimoFuse} {tr₀ : List (Except Errno FuseReply)}
    (h0 : Run (serving vfs) always (TokimoFuse.start, s₀) (a, s) tr₀)
    (hp : a.pathFor ino = some p)
    (hlook : ∀ s, listed vfs p (vfs.list p s).2 = listed vfs p s)
    {st : Stream σ} {tr : List Seen}
    (hr : Run (streaming vfs ino p) (Undisturbed vfs p) (.opened a s) st tr) :
    (∀ n c seg, seg <:+: tr → Steady n c seg → (reported seg).count n ≤ c)
      ∧ (st.finished = true → ∀ n c, Steady n c tr → (reported tr).count n = c) := by
  have hinv := stream_inv h0 hp hlook hr
  refine ⟨hinv.stretch, ?_⟩
  intro hfin n c hsteady
  have hne : tr ≠ [] := by
    intro hnil
    rw [hinv.begun hnil] at hfin
    exact nomatch hfin
  rw [hinv.whole n c hsteady, passed, if_pos hfin]
  exact (hinv.now n c tr (List.suffix_refl tr) hne hsteady).1

/-! ## The condition is needed -/

/-- Pages and nothing else. -/
def OnlyPages (vfs : TokimoVfs σ) (p : PathBuf) (st : Stream σ) (l : StreamLabel) : Prop :=
  ∃ room, l = .page room ∧ Undisturbed vfs p st l

/-- Pages pass what they report and leave the directory alone. -/
theorem pages_pass (hlook : ∀ s, listed vfs p (vfs.list p s).2 = listed vfs p s)
    {st st' : Stream σ} {tr : List Seen} (hst : Ready ino p st)
    (hr : Run (streaming vfs ino p) (OnlyPages vfs p) st st' tr) :
    listed vfs p st'.store = listed vfs p st.store
      ∧ ∀ n, passed vfs p st' n = passed vfs p st n + (reported tr).count n := by
  have hinv : Ready ino p st' ∧ listed vfs p st'.store = listed vfs p st.store
      ∧ ∀ n, passed vfs p st' n = passed vfs p st n + (reported tr).count n := by
    refine Run.invariant (I := fun st' tr => Ready ino p st'
      ∧ listed vfs p st'.store = listed vfs p st.store
      ∧ ∀ n, passed vfs p st' n = passed vfs p st n + (reported tr).count n) ?_ ?_ hr
    · exact ⟨hst, rfl, fun _ => rfl⟩
    · rintro s₁ tr₁ l s₂ es ⟨hready, hsame, hpass⟩ ⟨room, hl, hc⟩ hs
      obtain ⟨e, rfl, hbefore, hafter, hready', hpage, hstep⟩ := streaming_step hlook hready hc hs
      have hback : e.after = e.before := hpage room hl
      refine ⟨hready', ?_, ?_⟩
      · rw [← hafter, hback, hbefore, hsame]
      · intro n
        rw [hstep n (by rw [hback]), hpass n, reported_concat, Nat.add_assoc]
  exact hinv.2

/-- **CROSSING IS SEEN**: when a request first takes a name that stays to the
    other side of the position, then a stream that is read to its end from
    there has not reported that name as often as it was listed. -/
theorem crossing_is_seen {s₀ s : σ} {a : TokimoFuse} {tr₀ : List (Except Errno FuseReply)}
    (h0 : Run (serving vfs) always (TokimoFuse.start, s₀) (a, s) tr₀)
    (hp : a.pathFor ino = some p)
    (hlook : ∀ s, listed vfs p (vfs.list p s).2 = listed vfs p s)
    {st st₁ st₂ : Stream σ} {tr tr₂ : List Seen} {e : Seen} {req : FuseRequest} {n : Bytes}
    {c : Nat}
    (hr : Run (streaming vfs ino p) (Undisturbed vfs p) (.opened a s) st tr)
    (hopen : st.finished = false)
    (hs : (streaming vfs ino p).step st (.request req) = some (st₁, [e]))
    (hsteady : Steady n c (tr ++ [e]))
    (hcross : (e.after.take st.offset).count n ≠ (e.before.take st.offset).count n)
    (hr₂ : Run (streaming vfs ino p) (OnlyPages vfs p) st₁ st₂ tr₂) (hfin : st₂.finished = true) :
    (reported (tr ++ [e] ++ tr₂)).count n ≠ c := by
  have hinv := stream_inv h0 hp hlook hr
  have hready := request_ready hinv.ready hs
  obtain ⟨hsame, hpass⟩ := pages_pass hlook hready hr₂
  obtain ⟨hold, hb, ha⟩ := hsteady.concat
  obtain ⟨hst₁, he⟩ := Prod.mk.inj (Option.some.inj hs)
  have he' := List.head_eq_of_cons_eq he
  have hbefore : e.before = listed vfs p st.store := by rw [← he']
  have hafter : e.after = listed vfs p st₁.store := by rw [← he', ← hst₁]
  have hpage : e.page = [] := by rw [← he']
  have hopen₁ : st₁.finished = false ∧ st₁.offset = st.offset := by
    rw [← hst₁]
    exact ⟨hopen, rfl⟩
  -- what was reported before the request, and what the pages behind it pass
  have h1 : (reported (tr ++ [e])).count n = (e.before.take st.offset).count n := by
    rw [reported_concat, hinv.whole n c hold, passed, hopen, if_neg Bool.false_ne_true, hpage,
      hbefore]
    rfl
  have h2 : passed vfs p st₁ n = (e.after.take st.offset).count n := by
    rw [passed, hopen₁.1, if_neg Bool.false_ne_true, hopen₁.2, hafter]
  have h3 : passed vfs p st₂ n = c := by
    rw [passed, hfin, if_pos rfl, hsame, ← hafter, ha]
  have h4 := hpass n
  have hsplit : (reported (tr ++ [e] ++ tr₂)).count n
      = (reported (tr ++ [e])).count n + (reported tr₂).count n := by
    rw [reported, List.flatMap_append, List.count_append]
    rfl
  omega

/-! ## Streams over `HostFs` -/

theorem listed_of_ok {s s' : σ} {entries : List DirEntry} (h : vfs.list p s = (.ok entries, s')) :
    listed vfs p s = (withDots entries).map Prod.snd := by
  rw [listed, h]

/-- A directory is listed if its path is accepted and leads to it; otherwise
    nothing happens. -/
theorem hostFs_list_cases (fs : HostFs) (s : HostState) (p : PathBuf) :
    (∃ r l k, Accepted s fs p r ∧ TokimoHost.lookup s true (fs.joined p) = .ok (.at l k)
        ∧ nodeAt s.tree l = some .dir
        ∧ (fs.toVfs posix).list p s = (.ok ((s.tree.children l).map fun e =>
            { name := toStringLossy e.1.1, kind := e.2.node.kind }), s.touch [l]))
      ∨ ((∀ r l k, Accepted s fs p r → TokimoHost.lookup s true (fs.joined p) = .ok (.at l k) →
          nodeAt s.tree l ≠ some .dir)
        ∧ ∃ e, (fs.toVfs posix).list p s = (.error e, s)) := by
  have hlist : (fs.toVfs posix).list p = (do
      let q ← fs.resolve posix p
      let rd ← Eff.mapErr HostFs.mapIo (TokimoHost.readDir q)
      pure (rd.map fun e => { name := toStringLossy e.1.1, kind := e.2 })) := rfl
  rw [hlist]
  rcases resolve_cases fs s p with ⟨r, hacc, hr⟩ | ⟨hno, e, hr⟩
  · rw [Eff.bind_of_ok hr]
    rcases readDir_cases s (fs.joined p) with ⟨l, k, hl, hn, hd⟩ | ⟨⟨e, hd⟩, hno⟩
    · rw [Eff.bind_of_ok (Eff.mapErr_of_ok hd), List.map_map]
      exact Or.inl ⟨r, l, k, hacc, hl, hn, rfl⟩
    · rw [Eff.bind_of_error (Eff.mapErr_of_error hd)]
      exact Or.inr ⟨fun _ l k _ hl => hno l k hl, _, rfl⟩
  · rw [Eff.bind_of_error hr]
    exact Or.inr ⟨fun r _ _ hacc _ => absurd hacc (hno r), e, rfl⟩

/-- Listing a directory of a host leaves its listing as it is. -/
theorem hostFs_list_looks (fs : HostFs) (p : PathBuf) (s : HostState) :
    listed (fs.toVfs posix) p ((fs.toVfs posix).list p s).2 = listed (fs.toVfs posix) p s := by
  rcases hostFs_list_cases fs s p with ⟨r, l, k, hacc, hl, hn, h⟩ | ⟨-, e, h⟩
  · rw [h, listed_of_ok h]
    -- only the log of touched locations has changed
    rcases hostFs_list_cases fs (s.touch [l]) p with ⟨r', l', k', -, hl', -, h'⟩ | ⟨hno, -⟩
    · have hsame : Except.ok (Walked.at l k) = .ok (Walked.at l' k') := hl.symm.trans hl'
      rw [listed_of_ok h', (Walked.at.inj (Except.ok.inj hsame)).1]
      rfl
    · exact absurd hn (hno r l k hacc hl)
  · rw [h]

/-- A host with three files in its root. -/
def abcHost : HostState where
  tree := [
    ([], { id := 0, node := .dir, mode := 0o40755, mtime := 0, atime := 0, ctime := 0 }),
    ([⟨[97], rfl⟩],
      { id := 1, node := .file [], mode := 0o100644, mtime := 0, atime := 0, ctime := 0 }),
    ([⟨[98], rfl⟩],
      { id := 2, node := .file [], mode := 0o100644, mtime := 0, atime := 0, ctime := 0 }),
    ([⟨[99], rfl⟩],
      { id := 3, node := .file [], mode := 0o100644, mtime := 0, atime := 0, ctime := 0 })]
  cwd := []
  nextId := 4
  now := 0
  fileMode := 0o100644
  dirMode := 0o40755
  touched := []

def abcFs : HostFs := { root := .root, readOnly := false }

/-- A page with room for three entries, and the removal of the last of them
    before the pages that follow. -/
theorem removing_hides_the_next :
    ∃ st tr, Run (streaming (abcFs.toVfs posix) 1 .root) always (.opened .start abcHost) st tr
      ∧ st.finished = true ∧ Steady [98] 1 tr ∧ (reported tr).count [98] = 0 := by
  let ls : List StreamLabel :=
    [.page 2, .request (.unlink 1 [97]), .page 2, .page 2]
  let M := streaming (abcFs.toVfs posix) 1 .root
  have hx : ((M.exec (.opened .start abcHost) ls).map fun r => (r.1.finished, r.2))
      = some (true,
        [{ before := [dot, dotdot, [97], [98], [99]], after := [dot, dotdot, [97], [98], [99]],
           page := [dot, dotdot, [97]] },
         { before := [dot, dotdot, [97], [98], [99]], after := [dot, dotdot, [98], [99]],
           page := [] },
         { before := [dot, dotdot, [98], [99]], after := [dot, dotdot, [98], [99]],
           page := [[99]] },
         { before := [dot, dotdot, [98], [99]], after := [dot, dotdot, [98], [99]],
           page := [] }]) := by
    decide +kernel
  obtain ⟨⟨st, tr⟩, hrun, htr⟩ := Option.map_eq_some_iff.mp hx
  obtain ⟨hfin, htr⟩ := Prod.mk.inj htr
  have htr' : tr = _ := htr
  refine ⟨st, tr, run_of_exec_always hrun, hfin, ?_, ?_⟩
  · rw [htr']
    unfold Steady
    decide
  · rw [htr']
    decide

/-- Every request lists what was listed, and what is new behind it. -/
def Appends (vfs : TokimoVfs σ) (p : PathBuf) : Stream σ → StreamLabel → Prop
  | st, .page _ => (listed vfs p st.store).length < 2 ^ 64
  | st, .request req =>
      listed vfs p st.store <+: listed vfs p (serve vfs req (st.agent, st.store)).2.2

instance (vfs : TokimoVfs σ) (p : PathBuf) :
    ∀ (st : Stream σ) (l : StreamLabel), Decidable (Appends vfs p st l)
  | st, .page _ => inferInstanceAs (Decidable ((listed vfs p st.store).length < 2 ^ 64))
  | st, .request req => inferInstanceAs (Decidable
      (listed vfs p st.store <+: listed vfs p (serve vfs req (st.agent, st.store)).2.2))

theorem appends_undisturbed {st : Stream σ} {l : StreamLabel} (h : Appends vfs p st l) :
    Undisturbed vfs p st l := by
  cases l with
  | page room => exact h
  | request req =>
      intro _
      obtain ⟨news, hnews⟩ := h
      rw [← hnews]
      exact keepsPlace_append _ _ news

/-- A page, a new file, and the pages that follow: `b` is reported once. -/
theorem creating_hides_nothing :
    ∃ st tr, Run (streaming (abcFs.toVfs posix) 1 .root) (Undisturbed (abcFs.toVfs posix) .root)
        (.opened .start abcHost) st tr
      ∧ st.finished = true ∧ (reported tr).count [98] = 1 := by
  let ls : List StreamLabel :=
    [.page 2, .request (.create 1 [100] 0), .page 2, .page 2]
  let M := streaming (abcFs.toVfs posix) 1 .root
  have halong : M.Along (Appends (abcFs.toVfs posix) .root) (.opened .start abcHost) ls := by
    decide +kernel
  have hx : ((M.exec (.opened .start abcHost) ls).map fun r =>
      (r.1.finished, r.2.map fun e => (e.before.count [98], e.after.count [98])))
      = some (true, [(1, 1), (1, 1), (1, 1), (1, 1)]) := by
    decide +kernel
  obtain ⟨⟨st, tr⟩, hrun, htr⟩ := Option.map_eq_some_iff.mp hx
  obtain ⟨hfin, hcounts⟩ := Prod.mk.inj htr
  have hr := (run_of_exec ls halong hrun).weaken fun _ _ h => appends_undisturbed h
  have hsteady : Steady [98] 1 tr := by
    intro e he
    have hmem : (e.before.count [98], e.after.count [98]) ∈ [(1, 1), (1, 1), (1, 1), (1, 1)] := by
      rw [← hcounts]
      exact List.mem_map_of_mem he
    have hall : ∀ x ∈ [((1 : Nat), (1 : Nat)), (1, 1), (1, 1), (1, 1)], x = (1, 1) := by decide
    exact Prod.mk.inj (hall _ hmem)
  exact ⟨st, tr, hr, hfin,
    (streams_report_once Run.start rfl (hostFs_list_looks abcFs .root) hr).2 hfin [98] 1 hsteady⟩

end TokimoFuseAgent
