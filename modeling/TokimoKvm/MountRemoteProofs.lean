import TokimoKvm.RpcRemoteProofs
import TokimoKvm.MountRunProofs

/-! # One tree for many tasks

    Any number of tasks may call a mount over one connection at the same time,
    their requests and responses cut into pieces by the pipes.  As long as no
    call is dropped and all fits a frame, there is one order of the calls in
    which a single tree of files answers all of them, and each call takes
    effect between the moment it is issued and the moment it returns. -/

namespace TokimoRpc

open TokimoMachine TokimoVfsCore

variable {σ : Type} {P : VfsCall → Prop}

/-- A condition that every method called meets is met by every call issued. -/
theorem issued_of_run {creq : Codec Request} {cresp : Codec Response} {vfs : TokimoVfs σ}
    {cond : Clients σ → ClientLabel → Prop} {st₀ st : Clients σ} {tr : List Seen}
    (hcond : ∀ st i call, cond st (.call i call) → P call)
    (hr : Run (clients creq cresp vfs) cond st₀ st tr) : ∀ i call, .issue i call ∈ tr → P call := by
  refine Run.invariant (I := fun _ tr => ∀ i call, .issue i call ∈ tr → P call)
    (fun _ _ hm => by cases hm) ?_ hr
  intro st tr l st' es hold hc hs j call hm
  rcases List.mem_append.mp hm with hm | hm
  · exact hold j call hm
  · cases l with
    | greet i =>
        obtain ⟨rpc, es', -, -, rfl⟩ := greetAs_cases hs
        cases hm
    | call i call' =>
        obtain ⟨rpc, es', -, -, rfl⟩ := callAs_cases hs
        cases List.mem_singleton.mp hm
        exact hcond _ _ _ hc
    | rpc l =>
        -- work shows calls that are made and calls that return
        obtain ⟨-, rpc, es', -, -, rfl⟩ := workAs_cases hs
        rcases List.mem_append.mp hm with hm | hm
        · obtain ⟨e, -, he⟩ := List.mem_map.mp hm
          cases he
        · obtain ⟨e, -, he⟩ := List.mem_filterMap.mp hm
          cases e with
          | issue i req => cases he
          | served holder req resp => cases he
          | dropped i req => cases he
          | ret i req out =>
              obtain ⟨call', -, h⟩ := Option.map_eq_some_iff.mp he
              cases h

end TokimoRpc

namespace TokimoMountTree

open TokimoBytes TokimoMachine TokimoPath TokimoVfsCore TokimoHost TokimoHostFs TokimoRpc

variable {fs : HostFs} {r : Loc} {n : Nat} {creq : Codec Request} {cresp : Codec Response}

/-- Requests served by a tree one after the other. -/
def Performs (ro : Bool) : MountTree → List (Op × Except Fault Answer) → MountTree → Prop
  | v, [], v' => v' = v
  | v, (op, a) :: rest, v' => a = (serve ro v op).1 ∧ Performs ro (serve ro v op).2 rest v'

/-- The tasks call with paths made of names, and nothing is too large. -/
def Orderly (creq : Codec Request) (cresp : Codec Response) (fs : HostFs)
    (st : Clients HostState) (l : ClientLabel) : Prop :=
  Fitting creq cresp (fs.toVfs posix) st l ∧ ∀ i call, l = .call i call → ∃ op, Asks call op

/-- Calls in a row on a host directory are requests in a row to its tree. -/
theorem calls_perform (hs : Spelt fs r) :
    ∀ {made : List (VfsCall × Reply)} {s s' : HostState} {v : MountTree}, Mounted r s v →
      (∀ e ∈ made, ∃ op, Asks e.1 op) → Calls (fs.toVfs posix) s made s' →
      ∃ outs v', List.Forall₂ (fun e o => Asks e.1 o.1 ∧ Shows e.2 o.2) made outs
        ∧ Performs fs.readOnly v outs v' ∧ Follows r s s' v' := by
  intro made
  induction made with
  | nil =>
      intro s s' v hm _ hcalls
      have heq : s' = s := hcalls
      rw [heq]
      exact ⟨[], v, .nil, rfl, Follows.keep hm⟩
  | cons e made ih =>
      intro s s' v hm hasks hcalls
      obtain ⟨call, reply⟩ := e
      obtain ⟨hreply, hrest⟩ := hcalls
      obtain ⟨op, hask⟩ := hasks (call, reply) (List.mem_cons_self ..)
      obtain ⟨hshow, hfol⟩ := invoke_serves hask hs hm
      obtain ⟨outs, v', hall, hperf, hfol'⟩ :=
        ih hfol.mounted (fun e he => hasks e (List.mem_cons_of_mem _ he)) hrest
      refine ⟨(op, (serve fs.readOnly v op).1) :: outs, v', .cons ⟨hask, ?_⟩ hall, ⟨rfl, hperf⟩,
        hfol.trans hfol'⟩
      rw [hreply]
      exact hshow

/-- **ONE TREE FOR ALL TASKS**: let the root be an absolute canonical path
    without NUL other than `/`, of a host whose root has no links in it, and
    the process's working directory lie outside of it.  Along orderly runs the
    calls that are made, in the order in which they are made, are answered by
    one tree of files; they are all that the server has on record; each call
    of a task is made exactly once, for that task, between its issue and its
    return, and returns that answer; and outside the mount nothing is
    changed. -/
theorem shared_mount_is_tree {s : HostState} {v : MountTree} (hreq : creq.Lawful)
    (hresp : cresp.Lawful) (hs : Spelt fs r) (hm : Mounted r s v)
    {st : Clients HostState} {tr : List Seen}
    (hr : Run (clients creq cresp (fs.toVfs posix)) (Orderly creq cresp fs)
      (Clients.start n s) st tr) :
    (∀ i, (stageOf i tr).isSome = true)
      ∧ (∀ holder call reply, .made holder call reply ∈ tr → ∃ i, holder = some i)
      ∧ st.rpc.vfs.2 = madeOf tr
      ∧ ∃ outs v', List.Forall₂ (fun e o => Asks e.1 o.1 ∧ Shows e.2 o.2) (madeOf tr) outs
        ∧ Performs fs.readOnly v outs v' ∧ Follows r s st.rpc.vfs.1 v' := by
  obtain ⟨ph, h⟩ := carried_run hreq hresp (hr.weaken fun _ _ hc => hc.1)
  have hissue := issued_of_run (P := fun call => ∃ op, Asks call op)
    (fun _ i call hc => hc.2 i call rfl) hr
  have hstages : ∀ i, (stageOf i tr).isSome = true := by
    intro i
    obtain ⟨g, hg, -⟩ := h.stages i
    rw [hg]
    rfl
  refine ⟨hstages, h.holders, h.recorded, calls_perform hs hm ?_ h.calls⟩
  rintro ⟨call, reply⟩ hmade
  obtain ⟨e, he, hev⟩ := List.mem_filterMap.mp hmade
  cases e with
  | issue j call' => cases hev
  | ret j call' reply' => cases hev
  | made holder call' reply' =>
      cases hev
      obtain ⟨i, rfl⟩ := h.holders _ _ _ he
      exact hissue i call (issued_of_made (hstages i) he)

/-- The encodings of one request for the file of the mount and of the response. -/
def chunkRequests : List (Request × Bytes) := [(.stat chunkPath, [1, 2, 0x2f, 0x66])]
def chunkResponses : List (Response × Bytes) :=
  [(.stat (.ok { fileOf 0 with mode := 0o100644 }), [1, 0, 0, 0xa4, 0x83, 2, 0, 0, 0, 0])]

/-- A call for the file of the mount, until it returns. -/
def chunkCallLabels : List ClientLabel :=
  [.call 0 (.stat chunkPath), .rpc (.acquire 0), .rpc (.send 0 7), .rpc (.serverRecv 3),
    .rpc (.serverRecv 3), .rpc .serverHandle, .rpc (.serverSend 13), .rpc (.recv 0 3),
    .rpc (.recv 0 9)]

/-- A task asks for the file of the mount, and the server answers. -/
theorem chunk_stat_is_shown : ∃ (st : Clients HostState) (tr : List Seen),
    (madeOf tr).map Prod.fst = [.stat chunkPath]
      ∧ (∀ i, (stageOf i tr).isSome = true)
      ∧ (∀ holder call reply, .made holder call reply ∈ tr → ∃ i, holder = some i)
      ∧ st.rpc.vfs.2 = madeOf tr
      ∧ ∃ outs v', List.Forall₂ (fun e o => Asks e.1 o.1 ∧ Shows e.2 o.2) (madeOf tr) outs
        ∧ Performs false chunkTree outs v'
        ∧ Follows [⟨[114], rfl⟩] chunkHost st.rpc.vfs.1 v' := by
  obtain ⟨⟨st, tr⟩, hexec, htr⟩ := Option.map_eq_some_iff.mp
    (show ((clients (Codec.ofTable chunkRequests) (Codec.ofTable chunkResponses)
        (chunkFs.toVfs posix)).exec (Clients.start 1 chunkHost) chunkCallLabels).map Prod.snd
      = some [.issue 0 (.stat chunkPath),
        .made (some 0) (.stat chunkPath) (.attr (.ok { fileOf 0 with mode := 0o100644 })),
        .ret 0 (.stat chunkPath) (.attr (.ok { fileOf 0 with mode := 0o100644 }))]
      by decide +kernel)
  have hnamed : ∀ l ∈ chunkCallLabels, ∀ i call, l = .call i call → ∃ op, Asks call op := by
    intro l hl i call h
    simp only [chunkCallLabels, h, List.mem_cons, reduceCtorEq, ClientLabel.call.injEq, or_false,
      List.not_mem_nil] at hl
    rw [hl.2]
    exact ⟨.stat [⟨[102], rfl⟩], .stat ⟨Or.inl (by decide), by decide⟩⟩
  refine ⟨st, tr, ?_, shared_mount_is_tree (Codec.ofTable_lawful (by decide))
    (Codec.ofTable_lawful (by decide)) ⟨by decide, by decide, by decide⟩ chunk_mounted
    (run_of_exec chunkCallLabels (along_and (by decide +kernel) hnamed) hexec)⟩
  rw [show tr = _ from htr]
  rfl

end TokimoMountTree
