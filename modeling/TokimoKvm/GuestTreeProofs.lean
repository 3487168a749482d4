import TokimoKvm.GuestJailProofs
import TokimoKvm.GuestStackProofs
import TokimoKvm.MountRemoteProofs

/-! # The guest sees one tree of files

    All layers together.  The connection is invisible, the programs of the
    agent's requests make calls with spelled paths only, and over a host
    directory without links such calls are requests to a tree.  So the kernel
    is told what the agent makes of the tree's answers. -/

namespace TokimoFuseAgent

open TokimoMachine TokimoVfsCore TokimoRpc

variable {σ : Type} {creq : Codec Request} {cresp : Codec Response} {vfs : TokimoVfs σ}
  {g g' : Guest σ} {es : List GuestEvent}

theorem resume_asks_nothing {req : FuseRequest} {p : AgentProg} {rpc : Sys σ}
    (hs : resume req p rpc = some (g', es)) : askedOf es = [] := by
  rcases resume_cases hs with ⟨reply, a, -, -, rfl⟩ | ⟨call, k, rpc', es', -, rfl, -⟩
  · rfl
  · rfl

/-- Only a step of the kernel asks. -/
theorem asked_step {l : GuestLabel} (hs : (guest creq cresp vfs).step g l = some (g', es)) :
    ∀ req ∈ askedOf es, l = .request req := by
  intro req hreq
  cases l with
  | greet =>
      obtain ⟨-, rfl, -⟩ := greet_cases hs
      cases hreq
  | request req' =>
      obtain ⟨a, es', -, rfl, hr⟩ := request_cases hs
      have hask : askedOf (.asked req' :: es') = req' :: askedOf es' := rfl
      rw [hask, resume_asks_nothing hr] at hreq
      rw [List.mem_singleton.mp hreq]
  | rpc l =>
      obtain ⟨-, rpc', es', -, ⟨-, -, rfl⟩ | ⟨out, -, hwake⟩⟩ := work_cases hs
      · cases hreq
      · rcases wake_cases hwake with ⟨-, rfl, -⟩ | ⟨req', call, k, -, hr⟩
        · cases hreq
        · rw [resume_asks_nothing hr] at hreq
          cases hreq

/-- What is asked in a run is what its labels may ask. -/
theorem asked_run {Q : FuseRequest → Prop} {cond : Guest σ → GuestLabel → Prop}
    (hcond : ∀ g req, cond g (.request req) → Q req) {g₀ : Guest σ} {tr : List GuestEvent}
    (hr : Run (guest creq cresp vfs) cond g₀ g tr) : ∀ req ∈ askedOf tr, Q req := by
  refine Run.invariant (I := fun _ tr => ∀ req ∈ askedOf tr, Q req) (List.forall_mem_nil _) ?_ hr
  intro g tr l g' es htr hc hs req hreq
  rw [askedOf, List.filterMap_append] at hreq
  rcases List.mem_append.mp hreq with hmem | hmem
  · exact htr req hmem
  · rw [asked_step hs req hmem] at hc
    exact hcond g req hc

end TokimoFuseAgent

namespace TokimoMountTree

open TokimoMachine TokimoBytes TokimoPath TokimoTable TokimoVfsCore TokimoHost TokimoHostFs
  TokimoFileTree TokimoFuseAgent TokimoRpc

variable {fs : HostFs} {r : Loc} {s₀ s : HostState} {v : MountTree} {a : TokimoFuse}
  {creq : Codec Request} {cresp : Codec Response}

/-! ## Answers of a tree -/

/-- A call that is answered by the tree. -/
def TreeAnswers (readOnly : Bool) (v : MountTree) (call : VfsCall) (reply : Reply)
    (v' : MountTree) : Prop :=
  ∃ op, Asks call op ∧ Shows reply (serve readOnly v op).1 ∧ v' = (serve readOnly v op).2

/-- Requests of the kernel, each replied to as the agent does with its calls
    answered by the tree. -/
def Told (readOnly : Bool) : TokimoFuse × MountTree →
    List (FuseRequest × Except Errno FuseReply) → TokimoFuse × MountTree → Prop
  | x, [], x' => x' = x
  | x, (req, reply) :: log, x' => ∃ a v,
      Prog.Answered (TreeAnswers readOnly) (program x.1 req) x.2 (reply, a) v
        ∧ Told readOnly (a, v) log x'

/-- The host holds the tree, and nothing happened outside of it. -/
def Holds (r : Loc) (s₀ s : HostState) (v : MountTree) : Prop :=
  Follows r s₀ s v ∧ Within NulFree v

/-- **ONE CALL**: a call with spelled paths is answered by the tree. -/
theorem call_answered (hs : Spelt fs r) {call : VfsCall}
    (hpaths : ∀ p ∈ paths call, SpelledBy NulFree p) (hj : Holds r s₀ s v) :
    ∃ v', TreeAnswers fs.readOnly v call ((fs.toVfs posix).invoke s call).1 v'
      ∧ Holds r s₀ ((fs.toVfs posix).invoke s call).2 v' := by
  obtain ⟨op, hask, hop⟩ := asks_of_spelled hpaths
  obtain ⟨hshow, hfol⟩ := invoke_serves hask hs hj.1.mounted
  exact ⟨_, ⟨op, hask, hshow, rfl⟩, hj.1.trans hfol, serve_within hj.2 hop _⟩

/-- **ONE REQUEST**: its program is answered by the tree, and the agent goes on
    keeping spelled paths only. -/
theorem request_told (hs : Spelt fs r) (ha : Kept NulFree a) {req : FuseRequest}
    (hnamed : req.Named NulFree) (hj : Holds r s₀ s v) :
    ∃ v', Prog.Answered (TreeAnswers fs.readOnly) (program a req) v
        ((TokimoFuseAgent.serve (fs.toVfs posix) req (a, s)).1,
          (TokimoFuseAgent.serve (fs.toVfs posix) req (a, s)).2.1) v'
      ∧ Holds r s₀ (TokimoFuseAgent.serve (fs.toVfs posix) req (a, s)).2.2 v'
      ∧ Kept NulFree (TokimoFuseAgent.serve (fs.toVfs posix) req (a, s)).2.1 := by
  have hkept := (serve_keeps (mounted_safe hs s₀) hnamed (a, s) ⟨ha, v, hj⟩).1.1
  obtain ⟨v', hans, hj'⟩ := Prog.Calls.answered (f := (fs.toVfs posix).invoke)
    (J := Holds r s₀) (fun hpaths hj => call_answered hs hpaths hj) (program a req)
    (program_spelled ha hnamed) hj
  refine ⟨v', ?_, ?_, hkept⟩
  · rw [program_run (fs.toVfs posix) a req s]
    exact hans
  · rw [program_run (fs.toVfs posix) a req s]
    exact hj'

/-- Also half-way through a request the host holds a tree. -/
theorem reaches_contained (hs : Spelt fs r) (ha : Kept NulFree a) {req : FuseRequest}
    (hnamed : req.Named NulFree) (hj : Holds r s₀ s v) {p : AgentProg} {s' : HostState}
    (h : (program a req).Reaches (fs.toVfs posix).invoke s p s') : Contained r s₀ s' := by
  refine Prog.Reaches.related (A := TreeAnswers fs.readOnly) (J := Holds r s₀)
    (Q := fun c => ∀ p ∈ paths c, SpelledBy NulFree p) ?_ h (program_spelled ha hnamed) hj
  intro call s v hpaths hj
  exact call_answered hs hpaths hj

theorem answers_told (hs : Spelt fs r) : ∀ {log : List (FuseRequest × Except Errno FuseReply)}
    {a : TokimoFuse} {s : HostState} {v : MountTree} {st : TokimoFuse × HostState},
    Answers (fs.toVfs posix) (a, s) log st → Kept NulFree a → Holds r s₀ s v →
    (∀ e ∈ log, e.1.Named NulFree) →
    ∃ v', Told fs.readOnly (a, v) log (st.1, v') ∧ Holds r s₀ st.2 v' ∧ Kept NulFree st.1 := by
  intro log
  induction log with
  | nil =>
      intro a s v st h ha hj _
      have heq : st = (a, s) := h
      rw [heq]
      exact ⟨v, rfl, hj, ha⟩
  | cons e log ih =>
      obtain ⟨req, reply⟩ := e
      rintro a s v st ⟨hreply, hrest⟩ ha hj hnamed
      obtain ⟨v₁, hans, hj₁, ha₁⟩ := request_told hs ha (hnamed _ (List.mem_cons_self ..)) hj
      obtain ⟨v', htold, hj', ha'⟩ :=
        ih hrest ha₁ hj₁ fun e he => hnamed e (List.mem_cons_of_mem _ he)
      rw [← hreply] at hans
      exact ⟨v', ⟨_, v₁, hans, htold⟩, hj', ha'⟩

/-! ## The guest -/

/-- The kernel sends names, and everything fits a frame. -/
def Proper (creq : Codec Request) (cresp : Codec Response) (fs : HostFs) (g : Guest HostState)
    (l : GuestLabel) : Prop :=
  Civil creq cresp (fs.toVfs posix) g l ∧ ∀ req, l = .request req → req.Named NulFree

/-- Wherever the agent is in a request, the host holds a tree. -/
theorem doing_contained (hs : Spelt fs r) {ag : Agent} {p : Phase} {st : TokimoFuse × HostState}
    (h : Doing (fs.toVfs posix) ag p s st) (ha : Kept NulFree st.1) (hj : Holds r s₀ st.2 v)
    (hnamed : ∀ req ∈ ag.pending, req.Named NulFree) : Contained r s₀ s := by
  cases h with
  | new => exact ⟨v, hj⟩
  | greet => exact ⟨v, hj⟩
  | greeted => exact ⟨v, hj⟩
  | free => exact ⟨v, hj⟩
  | asked hreach => exact reaches_contained hs ha (hnamed _ (List.mem_cons_self ..)) hj hreach
  | @made _ _ s' req call k hreach =>
      rw [(answer_handle (fs.toVfs posix) call s').2]
      exact reaches_contained hs ha (hnamed _ (List.mem_cons_self ..)) hj hreach.step

/-- **THE GUEST SEES ONE TREE**: let the root be an absolute canonical path
    without NUL other than `/`, of a host directory without links and without
    NUL in a name, and the process's working directory lie outside of it.  The
    kernel's requests, of names without NUL, are replied to, in their order, by
    the agent's programs with every call answered by a tree of files.  Between
    two requests the host's directory is that tree; and at any time, also
    half-way through a request, nothing outside the directory is changed or
    acted on. -/
theorem guest_sees_tree (hreq : creq.Lawful) (hresp : cresp.Lawful) (hs : Spelt fs r)
    (hm : Mounted r s v) (hv : Within NulFree v) {g : Guest HostState} {tr : List GuestEvent}
    (hr : Run (guest creq cresp (fs.toVfs posix)) (Proper creq cresp fs) (Guest.start s) g tr) :
    askedOf tr = (answered tr).map Prod.fst ++ g.agent.pending
      ∧ (∃ a v', Told fs.readOnly (.start, v) (answered tr) (a, v')
        ∧ ∀ a', g.agent = .free a' → a' = a ∧ Follows r s g.rpc.vfs v')
      ∧ Contained r s g.rpc.vfs := by
  obtain ⟨ph, ⟨a, s'⟩, h⟩ := joined_run hreq hresp (hr.weaken fun _ _ hc => hc.1)
  have hnamed : ∀ req ∈ askedOf tr, req.Named NulFree :=
    asked_run (fun _ req hc => hc.2 req rfl) hr
  have hasked := h.asked
  rw [hasked] at hnamed
  obtain ⟨v', htold, hj, ha⟩ := answers_told hs h.answers start_kept ⟨Follows.keep hm, hv⟩
    fun e he => hnamed e.1 (List.mem_append.mpr (Or.inl (List.mem_map.mpr ⟨e, he, rfl⟩)))
  refine ⟨hasked, ⟨a, v', htold, fun a' hg => ?_⟩, ?_⟩
  · have hdoing := h.doing
    rw [hg] at hdoing
    obtain ⟨-, hst⟩ := hdoing.of_free
    obtain ⟨ha', hvfs⟩ := Prod.mk.inj hst
    refine ⟨ha'.symm, ?_⟩
    rw [← hvfs]
    exact hj.1
  · exact doing_contained hs h.doing ha hj fun req hpending =>
      hnamed req (List.mem_append.mpr (Or.inr hpending))

/-- The encodings of the greeting and of a request for the file of the mount. -/
def chunkGuestRequests : List (Request × Bytes) :=
  (.hello PROTOCOL_VERSION, [0, 1]) :: chunkRequests
def chunkGuestResponses : List (Response × Bytes) :=
  (.hello PROTOCOL_VERSION, [0, 1]) :: chunkResponses

/-- The call for the file, and its response of ten bytes. -/
def chunkLabels : List Label :=
  [.acquire 0, .send 0 7, .serverRecv 3, .serverRecv 3, .serverHandle, .serverSend 14, .recv 0 3,
    .recv 0 10]

/-- The kernel looks for the file of the mount. -/
theorem chunk_lookup_sees_tree : ∃ (g : Guest HostState) (tr : List GuestEvent),
    tr = [.asked (.lookup 1 [102]),
        .replied (.lookup 1 [102])
          (.ok (.entry (toFuseAttr 2 { fileOf 0 with mode := 0o100644 })))]
      ∧ askedOf tr = (answered tr).map Prod.fst ++ g.agent.pending
      ∧ (∃ a v', Told false (.start, chunkTree) (answered tr) (a, v')
        ∧ ∀ a', g.agent = .free a' → a' = a ∧ Follows [⟨[114], rfl⟩] chunkHost g.rpc.vfs v')
      ∧ Contained [⟨[114], rfl⟩] chunkHost g.rpc.vfs := by
  obtain ⟨⟨g, tr⟩, hexec, htr⟩ := Option.map_eq_some_iff.mp
    (show ((guest (Codec.ofTable chunkGuestRequests) (Codec.ofTable chunkGuestResponses)
        (chunkFs.toVfs posix)).exec (Guest.start chunkHost)
        (greetLabels ++ .request (.lookup 1 [102]) :: chunkLabels.map .rpc)).map Prod.snd
      = some [.asked (.lookup 1 [102]),
        .replied (.lookup 1 [102])
          (.ok (.entry (toFuseAttr 2 { fileOf 0 with mode := 0o100644 })))] by decide +kernel)
  have hproper : (guest (Codec.ofTable chunkGuestRequests) (Codec.ofTable chunkGuestResponses)
      (chunkFs.toVfs posix)).Along
      (Civil (Codec.ofTable chunkGuestRequests) (Codec.ofTable chunkGuestResponses)
        (chunkFs.toVfs posix)) (Guest.start chunkHost)
      (greetLabels ++ .request (.lookup 1 [102]) :: chunkLabels.map .rpc) := by
    decide +kernel
  have hnamed : ∀ l ∈ greetLabels ++ .request (.lookup 1 [102]) :: chunkLabels.map .rpc,
      ∀ req, l = .request req → req.Named NulFree := by
    intro l hl req heq
    rw [heq] at hl
    have hreq : req = .lookup 1 [102] := by
      simpa [greetLabels, chunkLabels] using hl
    rw [hreq]
    intro n hn
    rw [List.mem_singleton.mp hn]
    exact ⟨rfl, rfl⟩
  exact ⟨g, tr, htr, @guest_sees_tree chunkFs [⟨[114], rfl⟩] chunkHost chunkTree _ _
    (Codec.ofTable_lawful (by decide)) (Codec.ofTable_lawful (by decide))
    ⟨by decide, by decide, by decide⟩ chunk_mounted chunkTree_nulFree g tr
    (run_of_exec _ (along_and hproper hnamed) hexec)⟩

end TokimoMountTree
