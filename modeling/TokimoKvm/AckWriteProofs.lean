import TokimoKvm.TokioFile
import TokimoKvm.HostFsContentsProofs
import TokimoKvm.RpcServerProofs

/-! # Acknowledged writes

    `HostFs::write` answers when `write_all` has returned, with its last chunk
    still in the pool.  What it has acknowledged is there, for every later
    operation, exactly when the pool was quick enough and the host did not
    fail; with a `flush` it would always be. -/

namespace TokimoTokio

open TokimoMachine TokimoBytes TokimoPath TokimoVfsCore TokimoTable TokimoHost TokimoHostFs
open TokimoRpc

variable (env : Env)

/-! ## An empty pool -/

theorem finishNumber_nil {b : Pool} (h : b.jobs = []) (n : Nat) : b.finishNumber env n = b := by
  rw [Pool.finishNumber, h]
  rfl

theorem finishNumbers_nil (ns : List Nat) {b : Pool} (h : b.jobs = []) :
    ns.foldl (Pool.finishNumber env) b = b := by
  induction ns with
  | nil => rfl
  | cons n ns ih => rw [List.foldl_cons, finishNumber_nil env h, ih]

theorem turn_nil {b : Pool} (h : b.jobs = []) :
    b.turn env = { b with clock := b.clock + 1 } := finishNumbers_nil env _ h

theorem lift_nil {α : Type} (x : Eff HostState IoError α) {b : Pool} (h : b.jobs = []) :
    lift env x b = ((x b.host).1, { b with clock := b.clock + 1, host := (x b.host).2 }) := by
  rw [lift, turn_nil env h]

/-- From an empty pool to an empty one. -/
def Calm (b b' : Pool) : Prop := b.jobs = [] → b'.jobs = []

instance : IsPreorder Pool Calm where
  refl _ h := h
  trans _ _ _ h1 h2 h := h2 (h1 h)

theorem lift_calm {α : Type} (x : Eff HostState IoError α) : Eff.Within Calm (lift env x) := by
  intro b h
  rw [lift_nil env x h]
  exact h

theorem recover_calm {ε ε' α : Type} {x : Eff Pool ε α} (a : α) (hx : Eff.Within Calm x) :
    Eff.Within Calm (Eff.recover a x : Eff Pool ε' α) := by
  intro b h
  have hb := hx b h
  rw [Eff.recover]
  cases hr : x b with
  | mk r b' =>
      rw [hr] at hb
      cases r with
      | ok a' => exact hb
      | error e => exact hb

section Operations

variable (fs : HostFs)

theorem resolve_calm (p : PathBuf) : Eff.Within Calm (fs.resolve (tokio env) p) := by
  refine Eff.Within.bind (Eff.Within.mapErr _ (lift_calm env _)) fun r => ?_
  refine Eff.Within.bind (recover_calm _ (lift_calm env _)) fun c => ?_
  split
  · exact Eff.Within.fail _
  · exact Eff.Within.pure _

theorem checkRw_calm : Eff.Within Calm (fs.checkRw : VfsM Pool Unit) := by
  rw [HostFs.checkRw]
  split
  · exact Eff.Within.fail _
  · exact Eff.Within.pure _

theorem open_calm (o : OpenOptions) (p : PathBuf) :
    Eff.Within Calm ((tokio env).openFile o p) := lift_calm env _

theorem seek_calm (f : File) (off : UInt64) : Eff.Within Calm ((tokio env).seek f off) :=
  Eff.Within.bind (lift_calm env _) fun _ => Eff.Within.pure _

theorem read_calm (f : File) (n : Nat) : Eff.Within Calm ((tokio env).read f n) :=
  Eff.Within.bind (lift_calm env _) fun _ => Eff.Within.pure _

theorem fill_calm (want : Nat) : ∀ (fuel : Nat) (f : File) (buf : Bytes),
    Eff.Within Calm (HostFs.fill (tokio env) want fuel f buf) := by
  intro fuel
  induction fuel with
  | zero => exact fun f buf => Eff.Within.pure buf
  | succ fuel ih =>
      intro f buf
      rw [HostFs.fill]
      split
      · refine Eff.Within.bind (Eff.Within.mapErr _ (read_calm env f _)) fun got => ?_
        split
        · exact Eff.Within.pure buf
        · exact ih got.2 (buf ++ got.1)
      · exact Eff.Within.pure buf

theorem fill_flushed (want : Nat) : ∀ (fuel : Nat) (f : File) (buf : Bytes),
    HostFs.fill (flushed env) want fuel f buf = HostFs.fill (tokio env) want fuel f buf := by
  intro fuel
  induction fuel with
  | zero => exact fun f buf => rfl
  | succ fuel ih =>
      intro f buf
      rw [HostFs.fill, HostFs.fill]
      simp only [ih]
      rfl

theorem read_flushed (p : PathBuf) (off : UInt64) (len : UInt32) :
    fs.read (flushed env) p off len = fs.read (tokio env) p off len := by
  rw [HostFs.read, HostFs.read]
  simp only [fill_flushed]
  rfl

/-- A request that is no write is the same with and without `flush`, and puts
    nothing into the pool. -/
theorem handle_calm {req : Request} (h : ∀ p off data, req ≠ .write p off data) (b : Pool) :
    handle (fs.toVfs (tokio env)) req b = handle (fs.toVfs (flushed env)) req b
      ∧ Calm b (handle (fs.toVfs (tokio env)) req b).2 := by
  have hmeta : ∀ p, Eff.Within Calm ((tokio env).symlinkMetadata p) := fun p => lift_calm env _
  cases req with
  | hello v => exact ⟨rfl, refl_of Calm b⟩
  | stat p =>
      refine ⟨rfl, ?_⟩
      exact Eff.Within.bind (resolve_calm env fs p) (fun q => Eff.Within.bind
        (Eff.Within.mapErr _ (hmeta q)) fun _ => Eff.Within.pure _) b
  | list p =>
      refine ⟨rfl, ?_⟩
      exact Eff.Within.bind (resolve_calm env fs p) (fun q => Eff.Within.bind
        (Eff.Within.mapErr _ (lift_calm env (posix.readDir q))) fun _ => Eff.Within.pure _) b
  | read p off len =>
      have hread := (read_flushed env fs p off len).symm
      refine ⟨congrArg (fun x => (x b).map Response.read id) hread, ?_⟩
      exact Eff.Within.bind (resolve_calm env fs p) (fun q => Eff.Within.bind
        (Eff.Within.mapErr _ (open_calm env _ q)) fun f => Eff.Within.bind
          (Eff.Within.mapErr _ (seek_calm env f off)) fun f => fill_calm env _ _ f []) b
  | write p off data => exact absurd rfl (h p off data)
  | create p mode =>
      refine ⟨rfl, ?_⟩
      exact Eff.Within.bind (checkRw_calm fs) (fun _ => Eff.Within.bind (resolve_calm env fs p)
        fun q => Eff.Within.bind (Eff.Within.mapErr _ (open_calm env _ q)) fun _ =>
          Eff.Within.bind (Eff.Within.mapErr _ (hmeta q)) fun _ => Eff.Within.pure _) b
  | mkdir p mode =>
      refine ⟨rfl, ?_⟩
      exact Eff.Within.bind (checkRw_calm fs) (fun _ => Eff.Within.bind (resolve_calm env fs p)
        fun q => Eff.Within.bind (Eff.Within.mapErr _ (lift_calm env (posix.createDir q))) fun _ =>
          Eff.Within.bind (Eff.Within.mapErr _ (hmeta q)) fun _ => Eff.Within.pure _) b
  | remove p =>
      refine ⟨rfl, ?_⟩
      exact Eff.Within.bind (checkRw_calm fs) (fun _ => Eff.Within.bind (resolve_calm env fs p)
        fun q => Eff.Within.mapErr _ (lift_calm env (posix.removeFile q))) b
  | rmdir p =>
      refine ⟨rfl, ?_⟩
      exact Eff.Within.bind (checkRw_calm fs) (fun _ => Eff.Within.bind (resolve_calm env fs p)
        fun q => Eff.Within.mapErr _ (lift_calm env (posix.removeDir q))) b
  | rename p p' =>
      refine ⟨rfl, ?_⟩
      exact Eff.Within.bind (checkRw_calm fs) (fun _ => Eff.Within.bind (resolve_calm env fs p)
        fun q => Eff.Within.bind (resolve_calm env fs p') fun q' =>
          Eff.Within.mapErr _ (lift_calm env (posix.rename q q'))) b
  | truncate p size =>
      refine ⟨rfl, ?_⟩
      exact Eff.Within.bind (checkRw_calm fs) (fun _ => Eff.Within.bind (resolve_calm env fs p)
        fun q => Eff.Within.bind (Eff.Within.mapErr _ (open_calm env _ q)) fun f =>
          Eff.Within.mapErr _ (lift_calm env (posix.setLen f.fd size))) b

end Operations

/-! ## What a job leaves -/

theorem written_ok {j : Job} (h : j.error env = none) : j.written env = j.data := by
  rw [Job.error] at h
  rw [Job.written]
  cases hf : env.faults j.number with
  | some kf => rw [hf] at h; exact nomatch h
  | none =>
      simp only [hf] at h ⊢
      by_cases hfit : j.pos + j.data.length ≤ maxOffset
      · exact List.take_of_length_le (by omega)
      · rw [if_neg hfit] at h
        exact nomatch h

/-- A job that fails leaves something out. -/
theorem written_short {j : Job} {e : IoError} (h : j.error env = some e) (hne : j.data ≠ []) :
    (j.written env).length < j.data.length := by
  have hpos : 0 < j.data.length := List.length_pos_of_ne_nil hne
  rw [Job.error] at h
  rw [Job.written]
  cases hf : env.faults j.number with
  | some kf =>
      simp only [List.length_take]
      omega
  | none =>
      simp only [hf] at h
      by_cases hfit : j.pos + j.data.length ≤ maxOffset
      · rw [if_pos hfit] at h
        exact nomatch h
      · simp only [List.length_take]
        omega

theorem error_none_iff {j : Job} : j.error env = none
    ↔ env.faults j.number = none ∧ j.pos + j.data.length ≤ maxOffset := by
  rw [Job.error]
  cases env.faults j.number with
  | some kf => simp
  | none => simp

/-- Bytes written behind what was written so far. -/
theorem fresh_append (off : Nat) (sent bytes : Bytes) :
    (if bytes.isEmpty then freshBytes off sent
      else overwrite (off + sent.length) bytes (freshBytes off sent))
      = freshBytes off (sent ++ bytes) := by
  cases bytes with
  | nil => simp
  | cons b bytes =>
      cases sent with
      | nil =>
          show overwrite off (b :: bytes) [] = _
          rw [overwrite_nil]
          rfl
      | cons c sent =>
          have hlen : (List.replicate off (0 : UInt8) ++ c :: sent).length
              = off + (c :: sent).length := by simp
          show overwrite _ _ (List.replicate off 0 ++ c :: sent)
            = List.replicate off 0 ++ (c :: sent ++ b :: bytes)
          rw [overwrite, ← hlen, Nat.sub_self, List.replicate_zero, List.append_nil,
            List.take_length, List.drop_eq_nil_of_le (Nat.le_add_right _ _), List.append_nil,
            List.append_assoc]

/-- The host is as `s₀` was, but for contents, and the file at `l` is the
    given object with the given contents. -/
structure Holding (s₀ : HostState) (l : Loc) (object : Nat) (content : Bytes)
    (s : HostState) : Prop where
  cwd : s.cwd = s₀.cwd
  shape : ∀ v, shapeAt s₀.tree v = shapeAt s.tree v
  here : ∃ i, s.tree.get l = some i ∧ i.id = object ∧ i.node = .file content

section Holding

variable {s₀ s : HostState} {l : Loc} {object : Nat} {content : Bytes}

theorem Holding.lookup (h : Holding s₀ l object content s) (follow : Bool) (p : PathBuf) :
    lookup s follow p = lookup s₀ follow p := by
  rw [TokimoHost.lookup, TokimoHost.lookup, h.cwd,
    (walk_agree _ _ _ (fun v _ => h.shape v)).1]

theorem overwritten_shape (s : HostState) (pos : Nat) (bytes : Bytes) (i : Inode) :
    (Inode.overwritten s pos bytes i).node.shape = i.node.shape := by
  rw [Inode.overwritten]
  cases hi : i.node with
  | file old => rfl
  | dir => rw [hi]
  | symlink target => rw [hi]

theorem Holding.write (h : Holding s₀ l object content s) (pos : Nat) (bytes : Bytes) :
    Holding s₀ l object (if bytes.isEmpty then content else overwrite pos bytes content)
      (writeObject s object pos bytes) := by
  rw [writeObject]
  by_cases hb : bytes.isEmpty = true
  · rw [if_pos hb, if_pos hb]
    exact h
  · rw [if_neg hb, if_neg hb]
    have hget : ∀ v, Table.get (s.tree.map fun e => (e.1, if e.2.id = object then
          Inode.overwritten s pos bytes e.2 else e.2)) v
        = (s.tree.get v).map fun i => if i.id = object then
          Inode.overwritten s pos bytes i else i :=
      fun v => Table.get_map_values s.tree (fun i => if i.id = object then
        Inode.overwritten s pos bytes i else i) v
    refine ⟨h.cwd, fun v => ?_, ?_⟩
    · rw [h.shape v, shapeAt, shapeAt, nodeAt, nodeAt, HostState.setTree_tree, hget,
        Option.map_map, Option.map_map, Option.map_map]
      refine congrArg (fun g => Option.map g (s.tree.get v)) (funext fun i => ?_)
      show i.node.shape = (if i.id = object then
        Inode.overwritten s pos bytes i else i).node.shape
      by_cases hid : i.id = object
      · rw [if_pos hid, overwritten_shape]
      · rw [if_neg hid]
    · obtain ⟨i, hi, hid, hnode⟩ := h.here
      refine ⟨Inode.overwritten s pos bytes i, ?_, ?_, ?_⟩
      · rw [HostState.setTree_tree, hget, hi, Option.map_some, if_pos hid]
      · rw [Inode.overwritten, hnode]
        exact hid
      · rw [Inode.overwritten, hnode]
        rfl

end Holding

/-! ## The write that is going on -/

/-- Where a write goes: the host it found, the file it opened, and its offset,
    with the number its first job will have. -/
structure Site where
  s₀ : HostState
  l : Loc
  object : Nat
  off : Nat
  first : Nat

/-- The file at the site holds what has been written so far. -/
def Site.Holds (w : Site) (sent : Bytes) (b : Pool) : Prop :=
  Holding w.s₀ w.l w.object (freshBytes w.off sent) b.host

/-- No job of the write before number `m` has failed. -/
def Site.Clean (w : Site) (m : Nat) : Prop :=
  ∀ k, w.first ≤ k → k < m → env.faults k = none

/-- The job `j` was handed over behind `done`. -/
structure Site.Last (w : Site) (done : Bytes) (j : Job) (b : Pool) : Prop where
  data : j.data ≠ []
  object : j.object = w.object
  pos : j.pos = w.off + done.length
  number : j.number + 1 = b.next
  first : w.first ≤ j.number
  clean : w.Clean env j.number

/-- A write in the middle: nothing handed over yet, or the last chunk in the
    pool, or that chunk done. -/
inductive Site.Writing (w : Site) : Bytes → File → Pool → Prop where
  | new (f : File) (b : Pool) : f.last = none → b.jobs = [] → w.Holds [] b →
      w.first = b.next → Writing w [] f b
  | pending (f : File) (b : Pool) (done : Bytes) (j : Job) : f.last = some j → b.jobs = [j] →
      w.Last env done j b → w.Holds done b → Writing w (done ++ j.data) f b
  | finished (f : File) (b : Pool) (done : Bytes) (j : Job) : f.last = some j → b.jobs = [] →
      w.Last env done j b → w.Holds (done ++ j.written env) b → Writing w (done ++ j.data) f b

variable {env} {w : Site}

theorem Site.Last.finish {done : Bytes} {j : Job} {b : Pool} (h : w.Last env done j b)
    (hj : b.jobs = [j]) (hb : w.Holds done b) :
    (b.finish env j).jobs = [] ∧ (b.finish env j).next = b.next
      ∧ w.Holds (done ++ j.written env) (b.finish env j) := by
  refine ⟨?_, rfl, ?_⟩
  · show b.jobs.erase j = []
    rw [hj]
    simp
  · have hwrite := Holding.write hb j.pos (j.written env)
    rw [h.pos, fresh_append] at hwrite
    show Holding _ _ _ _ (writeObject b.host j.object j.pos (j.written env))
    rw [h.object, h.pos]
    exact hwrite

/-- A turn with one job in the pool gets it done or does not. -/
theorem turn_one {b : Pool} {j : Job} (hj : b.jobs = [j]) :
    ((b.turn env).jobs = [j] ∧ (b.turn env).host = b.host ∧ (b.turn env).next = b.next)
      ∨ ((b.turn env).jobs = [] ∧ (b.turn env).host = (b.finish env j).host
        ∧ (b.turn env).next = b.next) := by
  have hfold : ∀ (ns : List Nat) (b : Pool), b.jobs = [j] →
      ((ns.foldl (Pool.finishNumber env) b).jobs = [j]
          ∧ (ns.foldl (Pool.finishNumber env) b).host = b.host
          ∧ (ns.foldl (Pool.finishNumber env) b).next = b.next)
        ∨ ((ns.foldl (Pool.finishNumber env) b).jobs = []
          ∧ (ns.foldl (Pool.finishNumber env) b).host = (b.finish env j).host
          ∧ (ns.foldl (Pool.finishNumber env) b).next = b.next) := by
    intro ns
    induction ns with
    | nil => exact fun b hb => Or.inl ⟨hb, rfl, rfl⟩
    | cons n ns ih =>
        intro b hb
        rw [List.foldl_cons]
        by_cases hn : j.number = n
        · have hfin : b.finishNumber env n = b.finish env j := by
            rw [Pool.finishNumber, hb]
            simp [hn]
          have hnil : (b.finish env j).jobs = [] := by
            show b.jobs.erase j = []
            rw [hb]
            simp
          rw [hfin, finishNumbers_nil env ns hnil]
          exact Or.inr ⟨hnil, rfl, rfl⟩
        · have hskip : b.finishNumber env n = b := by
            rw [Pool.finishNumber, hb]
            simp [hn]
          rw [hskip]
          exact ih b hb
  exact hfold _ { b with clock := b.clock + 1 } hj

theorem Site.Writing.turn {sent : Bytes} {f : File} {b : Pool} (h : w.Writing env sent f b) :
    w.Writing env sent f (b.turn env) := by
  cases h with
  | new _ _ hlast hjobs hb hn =>
      rw [turn_nil env hjobs]
      exact .new f _ hlast hjobs hb hn
  | finished _ _ done j hlast hjobs hl hb =>
      rw [turn_nil env hjobs]
      exact .finished f _ done j hlast hjobs ⟨hl.data, hl.object, hl.pos, hl.number, hl.first,
        hl.clean⟩ hb
  | pending _ _ done j hlast hjobs hl hb =>
      rcases @turn_one env _ _ hjobs with ⟨h1, h2, h3⟩ | ⟨h1, h2, h3⟩
      · refine .pending f _ done j hlast h1 ⟨hl.data, hl.object, hl.pos, ?_, hl.first, hl.clean⟩ ?_
        · rw [h3]
          exact hl.number
        · rw [Site.Holds, h2]
          exact hb
      · obtain ⟨-, -, hdone⟩ := hl.finish hjobs hb
        refine .finished f _ done j hlast h1 ⟨hl.data, hl.object, hl.pos, ?_, hl.first, hl.clean⟩ ?_
        · rw [h3]
          exact hl.number
        · rw [Site.Holds, h2]
          exact hdone

/-- Jobs before the next one are clean when the last one is. -/
theorem Site.Last.clean_next {done : Bytes} {j : Job} {b : Pool} (h : w.Last env done j b)
    (he : j.error env = none) : w.Clean env b.next := by
  intro k h1 h2
  rcases Nat.lt_or_ge k j.number with hlt | hge
  · exact h.clean k h1 hlt
  · have hk : k = j.number := by
      have hnum := h.number
      omega
    rw [hk]
    exact ((error_none_iff env).mp he).1

/-- Waiting for the last chunk: its error comes out, or all is written. -/
theorem Site.Writing.settle {sent : Bytes} {f : File} {b : Pool} (h : w.Writing env sent f b) :
    (∃ e b', TokimoTokio.settle env f b = (.error e, b') ∧ b'.jobs = [])
      ∨ ∃ b', TokimoTokio.settle env f b = (.ok (), b') ∧ b'.jobs = [] ∧ w.Holds sent b'
        ∧ b'.next = b.next ∧ w.Clean env b'.next ∧ w.first ≤ b'.next := by
  rw [TokimoTokio.settle]
  cases h with
  | new _ _ hlast hjobs hb hn =>
      rw [hlast]
      refine Or.inr ⟨b, rfl, hjobs, hb, rfl, fun k h1 h2 => ?_, Nat.le_of_eq hn⟩
      omega
  | pending _ _ done j hlast hjobs hl hb =>
      obtain ⟨hnil, hnext, hdone⟩ := hl.finish hjobs hb
      have hmem : j ∈ b.jobs := hjobs ▸ List.mem_singleton_self j
      simp only [hlast, if_pos hmem]
      cases he : j.error env with
      | some e => exact Or.inl ⟨e, _, rfl, hnil⟩
      | none =>
          rw [written_ok env he] at hdone
          exact Or.inr ⟨_, rfl, hnil, hdone, hnext, hl.clean_next he,
            Nat.le_trans hl.first (Nat.le_of_lt (Nat.lt_of_succ_le (Nat.le_of_eq hl.number)))⟩
  | finished _ _ done j hlast hjobs hl hb =>
      have hmem : j ∉ b.jobs := hjobs ▸ List.not_mem_nil
      simp only [hlast, if_neg hmem]
      cases he : j.error env with
      | some e => exact Or.inl ⟨e, b, rfl, hjobs⟩
      | none =>
          rw [written_ok env he] at hb
          exact Or.inr ⟨b, rfl, hjobs, hb, rfl, hl.clean_next he,
            Nat.le_trans hl.first (Nat.le_of_lt (Nat.lt_of_succ_le (Nat.le_of_eq hl.number)))⟩

/-- **THE LOOP OF `write_all`**: it fails with an empty pool, or has handed all
    chunks over. -/
theorem writeChunks_spec (cs : List Bytes) (hcs : ∀ c ∈ cs, c ≠ []) {sent : Bytes} {f : File}
    {b : Pool} (h : w.Writing env sent f b) (hobj : f.object = w.object)
    (hpos : f.fd.pos = w.off + sent.length) :
    (∃ e b', writeChunks env cs f b = (.error e, b') ∧ b'.jobs = [])
      ∨ ∃ f' b', writeChunks env cs f b = (.ok f', b')
        ∧ w.Writing env (sent ++ cs.flatten) f' b' := by
  induction cs generalizing sent f b with
  | nil =>
      refine Or.inr ⟨f, b.turn env, rfl, ?_⟩
      rw [List.flatten_nil, List.append_nil]
      exact h.turn
  | cons c cs ih =>
      have hc : c ≠ [] := hcs c List.mem_cons_self
      have hpass : pass env b = (.ok (), b.turn env) := rfl
      rw [writeChunks, Eff.bind_of_ok hpass]
      rcases h.turn.settle with ⟨e, b₁, he, hnil⟩ | ⟨b₁, hok, hnil, hb, hnext, hclean, hfirst⟩
      · rw [Eff.bind_of_error he]
        exact Or.inl ⟨e, b₁, rfl, hnil⟩
      · rw [Eff.bind_of_ok hok]
        let j : Job := { number := b₁.next, object := f.object, pos := f.fd.pos, data := c }
        let f₁ : File := { f with fd := { f.fd with pos := f.fd.pos + c.length }, last := some j }
        let b₂ : Pool := { b₁ with jobs := b₁.jobs ++ [j], next := b₁.next + 1 }
        have hsubmit : submit f c b₁ = (.ok f₁, b₂) := rfl
        have hjobs : b₂.jobs = [j] := by
          show b₁.jobs ++ [j] = [j]
          rw [hnil]
          rfl
        have hwriting : w.Writing env (sent ++ c) f₁ b₂ :=
          .pending f₁ b₂ sent j rfl hjobs ⟨hc, hobj, hpos, rfl, hfirst, hclean⟩ hb
        rw [Eff.bind_of_ok hsubmit]
        have hrest := ih (fun d hd => hcs d (List.mem_cons_of_mem _ hd)) hwriting hobj
          (by rw [List.length_append, ← Nat.add_assoc, ← hpos])
        rwa [List.flatten_cons, ← List.append_assoc]

theorem chunksOf_spec {n : Nat} (hn : 0 < n) : ∀ (fuel : Nat) (data : Bytes),
    data.length ≤ fuel → (chunksOf n fuel data).flatten = data
      ∧ ∀ c ∈ chunksOf n fuel data, c ≠ [] := by
  intro fuel
  induction fuel with
  | zero =>
      intro data hlen
      rw [List.eq_nil_of_length_eq_zero (Nat.le_zero.mp hlen)]
      exact ⟨rfl, fun c hc => absurd hc List.not_mem_nil⟩
  | succ fuel ih =>
      intro data hlen
      rw [chunksOf]
      by_cases hd : data.isEmpty = true
      · rw [if_pos hd, List.isEmpty_iff.mp hd]
        exact ⟨rfl, fun c hc => absurd hc List.not_mem_nil⟩
      · have hpos : 0 < data.length :=
          List.length_pos_of_ne_nil fun h => hd (List.isEmpty_iff.mpr h)
        have hdrop : (data.drop n).length ≤ fuel := by
          rw [List.length_drop]
          omega
        obtain ⟨h1, h2⟩ := ih (data.drop n) hdrop
        rw [if_neg hd]
        refine ⟨?_, List.forall_mem_cons.mpr ⟨fun hnil => ?_, h2⟩⟩
        · rw [List.flatten_cons, h1, List.take_append_drop]
        · have hlen0 := congrArg List.length hnil
          rw [List.length_take, List.length_nil] at hlen0
          omega

theorem chunks_spec (data : Bytes) :
    (chunks data).flatten = data ∧ ∀ c ∈ chunks data, c ≠ [] :=
  chunksOf_spec (by decide) data.length data (Nat.le_refl _)

/-! ## One write -/

variable (env)

theorem canonicalize_nil (p : PathBuf) {b : Pool} (h : b.jobs = []) :
    ∃ r, lift env (posix.canonicalize p) b = (r, { b with clock := b.clock + 1 }) := by
  rw [lift_nil env _ h]
  refine ⟨_, congrArg (Prod.mk _) ?_⟩
  have hs : (posix.canonicalize p b.host).2 = b.host := by
    show (canonicalize p b.host).2 = b.host
    rw [canonicalize]
    cases realpath b.host p with
    | ok l => rfl
    | error e => rfl
  rw [hs]

/-- `resolve` hands on the joined path, or fails. -/
theorem resolve_nil (fs : HostFs) (p : PathBuf) {b : Pool} (h : b.jobs = []) :
    ∃ b', b'.jobs = [] ∧ b'.host = b.host ∧ b'.next = b.next
      ∧ (fs.resolve (tokio env) p b = (.ok (fs.joined p), b')
        ∨ ∃ e, fs.resolve (tokio env) p b = (.error e, b')) := by
  obtain ⟨r, hr⟩ := canonicalize_nil env fs.root h
  have hdef : fs.resolve (tokio env) p = (do
      let canonRoot ← Eff.mapErr (fun e => .io e.text) (lift env (posix.canonicalize fs.root))
      let canonParent ← Eff.recover (fs.probe p) (lift env (posix.canonicalize (fs.probe p)))
      if !canonParent.startsWith canonRoot then Eff.fail .permissionDenied
      else pure (fs.joined p)) := rfl
  rw [hdef]
  cases r with
  | error e =>
      rw [Eff.bind_of_error (Eff.mapErr_of_error hr)]
      exact ⟨{ b with clock := b.clock + 1 }, h, rfl, rfl, Or.inr ⟨_, rfl⟩⟩
  | ok root =>
      have h1 : ({ b with clock := b.clock + 1 } : Pool).jobs = [] := h
      obtain ⟨r', hr'⟩ := canonicalize_nil env (fs.probe p) h1
      have hrec : ∃ c : PathBuf, (Eff.recover (fs.probe p)
          (lift env (posix.canonicalize (fs.probe p))) : VfsM Pool PathBuf)
            { b with clock := b.clock + 1 } = (.ok c, { b with clock := b.clock + 1 + 1 }) := by
        rw [Eff.recover, hr']
        cases r' with
        | ok c => exact ⟨c, rfl⟩
        | error e => exact ⟨_, rfl⟩
      obtain ⟨c, hc⟩ := hrec
      rw [Eff.bind_of_ok (Eff.mapErr_of_ok hr), Eff.bind_of_ok hc]
      refine ⟨{ b with clock := b.clock + 1 + 1 }, h, rfl, rfl, ?_⟩
      by_cases hin : (!c.startsWith root) = true
      · rw [if_pos hin]
        exact Or.inr ⟨_, rfl⟩
      · rw [if_neg hin]
        exact Or.inl rfl

/-- Opening to write leads to an empty file that the path leads to. -/
theorem openObject_write (s : HostState) (p : PathBuf) :
    (∃ l k object s', openObject writeOptions p s
          = (.ok { fd := ⟨l, 0⟩, object := object, last := none }, s')
        ∧ lookup s' true p = .ok (.at l k)
        ∧ ∃ i, s'.tree.get l = some i ∧ i.id = object ∧ i.node = .file [])
      ∨ ∃ e, openObject writeOptions p s = (.error e, s) := by
  rcases openFile_cases writeOptions s p with ⟨wk, s', hl, -, hopened, hok⟩ | ⟨⟨e, he⟩, -⟩
  · refine Or.inl ?_
    obtain ⟨hcwd, -, hext⟩ := hopened.extends
    have hopen : openObject writeOptions p s
        = (.ok ⟨⟨wk.place, 0⟩, ((s'.tree.get wk.place).map Inode.id).getD 0, none⟩,
          s'.touch [wk.place]) := Eff.bind_of_ok hok
    obtain ⟨hnul, hne, hwalk⟩ := lookup_ok hl
    cases hopened with
    | new d n hfree =>
        have hget : Table.get (s.addNode (d ++ [n]) (.file []) s.fileMode).tree (d ++ [n])
            = some _ := Table.get_insert_self _ _ _
        obtain ⟨k, hk⟩ := walk_found (nodeAt_of_get hget) hext _ _ _ hwalk
        refine ⟨d ++ [n], k, _, _, hopen, ?_, _, hget, ?_, rfl⟩
        · rw [lookup_walk hnul hne]
          exact hk
        · rw [Walked.place, hget]
          rfl
    | dir l k hn hw => exact nomatch hw
    | keep l k i data hg hi ht => exact nomatch ht
    | cut l k i data hg hi ht =>
        have hget : Table.get (s.putData l i []).tree l = some _ := Table.get_insert_self _ _ _
        refine ⟨l, k, _, _, hopen, ?_, _, hget, ?_, rfl⟩
        · rw [lookup_walk hnul hne]
          exact walk_extend hext hwalk
        · rw [Walked.place, hget]
          rfl
  · exact Or.inr ⟨e, Eff.bind_of_error he⟩

theorem seek_nil (f : File) (off : UInt64) {b : Pool} (hb : b.jobs = []) :
    (tokio env).seek f off b
      = if off.toNat ≤ maxOffset then
          (.ok { f with fd := { f.fd with pos := off.toNat } }, { b with clock := b.clock + 1 })
        else (.error EINVAL, { b with clock := b.clock + 1 }) := by
  have hseek := lift_nil env (posix.seek f.fd off) hb
  have hposix : posix.seek f.fd off b.host = TokimoHost.seek f.fd off b.host := rfl
  rw [hposix, TokimoHost.seek] at hseek
  by_cases hoff : off.toNat ≤ maxOffset
  · rw [if_pos hoff] at hseek ⊢
    exact Eff.bind_of_ok hseek
  · rw [if_neg hoff] at hseek ⊢
    exact Eff.bind_of_error hseek

/-- The two hosts, with and without `flush`. -/
def Flushes (host : HostCalls Pool File) : Prop := host = tokio env ∨ host = flushed env

/-- The two hosts differ in `write_all` alone. -/
theorem Flushes.same {host : HostCalls Pool File} (h : Flushes env host) :
    (∀ fs p, HostFs.resolve host fs p = HostFs.resolve (tokio env) fs p)
      ∧ host.openFile = (tokio env).openFile ∧ host.seek = (tokio env).seek := by
  rcases h with rfl | rfl
  · exact ⟨fun _ _ => rfl, rfl, rfl⟩
  · exact ⟨fun _ _ => rfl, rfl, rfl⟩

/-- A write fails before it hands anything over, or comes to its `write_all`
    with an empty file. -/
theorem write_front (fs : HostFs) (p : PathBuf) (off : UInt64) (data : Bytes) {b : Pool}
    (hb : b.jobs = []) :
    (∃ e b', b'.jobs = []
        ∧ ∀ host, Flushes env host → fs.write host p off data b = (.error e, b'))
      ∨ ∃ (w : Site) (k : Nat) (f : File) (b' : Pool),
          w.first = b.next ∧ w.off = off.toNat
          ∧ lookup w.s₀ true (fs.joined p) = .ok (.at w.l k)
          ∧ w.Writing env [] f b' ∧ f.object = w.object ∧ f.fd.pos = w.off
          ∧ ∀ host, Flushes env host → fs.write host p off data b
              = (Eff.mapErr HostFs.mapIo (host.writeAll f data) >>= fun _ =>
                  (pure (UInt32.ofNat data.length) : VfsM Pool UInt32)) b' := by
  cases hro : fs.readOnly with
  | true =>
      refine Or.inl ⟨.permissionDenied, b, hb, fun host _ => ?_⟩
      exact Eff.bind_of_error (checkRw_ro hro b)
  | false =>
      -- no job is left, so up to the write every call finds the host as it is
      obtain ⟨b₁, hb₁, hhost, hnext, hres⟩ := resolve_nil env fs p hb
      have hwrite : ∀ host : HostCalls Pool File, Flushes env host → fs.write host p off data b
          = (fs.resolve (tokio env) p >>= fun q =>
              Eff.mapErr HostFs.mapIo ((tokio env).openFile writeOptions q) >>= fun f =>
              Eff.mapErr HostFs.mapIo ((tokio env).seek f off) >>= fun f =>
              Eff.mapErr HostFs.mapIo (host.writeAll f data) >>= fun _ =>
                (pure (UInt32.ofNat data.length) : VfsM Pool UInt32)) b := by
        intro host hh
        obtain ⟨h1, h2, h3⟩ := hh.same
        rw [← h1, ← h2, ← h3]
        exact Eff.bind_of_ok (checkRw_rw hro b)
      rcases hres with hok | ⟨e, he⟩
      · have hopen : (tokio env).openFile writeOptions (fs.joined p) b₁ = _ :=
          lift_nil env (openObject writeOptions (fs.joined p)) hb₁
        rcases openObject_write b₁.host (fs.joined p)
          with ⟨l, k, object, s', ho, hlook, i, hg, hid, hi⟩ | ⟨e, he⟩
        · rw [ho] at hopen
          let b₂ : Pool := { b₁ with clock := b₁.clock + 1, host := s' }
          have hseek := seek_nil env ⟨⟨l, 0⟩, object, none⟩ off (show b₂.jobs = [] from hb₁)
          by_cases hoff : off.toNat ≤ maxOffset
          · rw [if_pos hoff] at hseek
            refine Or.inr ⟨⟨s', l, object, off.toNat, b.next⟩, k, ⟨⟨l, off.toNat⟩, object, none⟩,
              { b₂ with clock := b₂.clock + 1 }, rfl, rfl, hlook, ?_, rfl, rfl, fun host hh => ?_⟩
            · exact .new _ _ rfl hb₁ ⟨rfl, fun _ => rfl, i, hg, hid, hi⟩ hnext.symm
            · rw [hwrite host hh, Eff.bind_of_ok hok, Eff.bind_of_ok (Eff.mapErr_of_ok hopen),
                Eff.bind_of_ok (Eff.mapErr_of_ok hseek)]
          · rw [if_neg hoff] at hseek
            refine Or.inl ⟨HostFs.mapIo EINVAL, { b₂ with clock := b₂.clock + 1 }, hb₁,
              fun host hh => ?_⟩
            rw [hwrite host hh, Eff.bind_of_ok hok, Eff.bind_of_ok (Eff.mapErr_of_ok hopen),
              Eff.bind_of_error (Eff.mapErr_of_error hseek)]
        · rw [he] at hopen
          refine Or.inl ⟨HostFs.mapIo e, { b₁ with clock := b₁.clock + 1, host := b₁.host }, hb₁,
            fun host hh => ?_⟩
          rw [hwrite host hh, Eff.bind_of_ok hok,
            Eff.bind_of_error (Eff.mapErr_of_error hopen)]
      · refine Or.inl ⟨e, b₁, hb₁, fun host hh => ?_⟩
        rw [hwrite host hh, Eff.bind_of_error he]

/-- **ONE WRITE**: it fails with an empty pool, with and without `flush`, or it
    returns with its bytes handed over, and `flush` waits for the last. -/
theorem write_cases (fs : HostFs) (p : PathBuf) (off : UInt64) (data : Bytes) {b : Pool}
    (hb : b.jobs = []) :
    (∃ e b', b'.jobs = [] ∧ fs.write (tokio env) p off data b = (.error e, b')
        ∧ fs.write (flushed env) p off data b = (.error e, b'))
      ∨ ∃ (w : Site) (k : Nat) (f : File) (b' : Pool),
          w.first = b.next ∧ w.off = off.toNat
          ∧ lookup w.s₀ true (fs.joined p) = .ok (.at w.l k) ∧ w.Writing env data f b'
          ∧ fs.write (tokio env) p off data b = (.ok (UInt32.ofNat data.length), b')
          ∧ ∀ b'', settle env f b' = (.ok (), b'') →
              fs.write (flushed env) p off data b = (.ok (UInt32.ofNat data.length), b'') := by
  rcases write_front env fs p off data hb with ⟨e, b', hnil, he⟩
    | ⟨w, k, f, b₁, hfirst, hoff, hlook, hw, hobj, hpos, hwrite⟩
  · exact Or.inl ⟨e, b', hnil, he _ (Or.inl rfl), he _ (Or.inr rfl)⟩
  · have htokio := hwrite _ (Or.inl rfl)
    have hflushed := hwrite _ (Or.inr rfl)
    obtain ⟨hflat, hne⟩ := chunks_spec data
    have hflush : ∀ f b, (flushed env).writeAll f data b = (writeChunks env (chunks data) f
        >>= fun f => settle env f >>= fun _ => (pure f : Eff Pool IoError File)) b := fun _ _ => rfl
    rcases writeChunks_spec (chunks data) hne hw hobj hpos with ⟨e, b', he, hnil⟩
      | ⟨f', b', hok, hdone⟩
    · have hfail : (tokio env).writeAll f data b₁ = (.error e, b') := he
      have hfail' : (flushed env).writeAll f data b₁ = (.error e, b') := by
        rw [hflush, Eff.bind_of_error he]
      refine Or.inl ⟨HostFs.mapIo e, b', hnil, ?_, ?_⟩
      · rw [htokio, Eff.bind_of_error (Eff.mapErr_of_error hfail)]
      · rw [hflushed, Eff.bind_of_error (Eff.mapErr_of_error hfail')]
    · rw [hflat, List.nil_append] at hdone
      have hdid : (tokio env).writeAll f data b₁ = (.ok f', b') := hok
      refine Or.inr ⟨w, k, f', b', hfirst, hoff, hlook, hdone, ?_, fun b'' hs => ?_⟩
      · rw [htokio, Eff.bind_of_ok (Eff.mapErr_of_ok hdid)]
        rfl
      · have hall : (flushed env).writeAll f data b₁ = (.ok f', b'') := by
          rw [hflush, Eff.bind_of_ok hok, Eff.bind_of_ok hs]
          rfl
        rw [hflushed, Eff.bind_of_ok (Eff.mapErr_of_ok hall)]
        rfl

/-! ## Runs -/

/-- The pool after some requests. -/
def after (fs : HostFs) (reqs : List Request) (b : Pool) : Pool :=
  (runRequests (fs.toVfs (tokio env)) reqs b).2

theorem after_append (fs : HostFs) (pre : List Request) (req : Request) (b : Pool) :
    after env fs (pre ++ [req]) b = (handle (fs.toVfs (tokio env)) req (after env fs pre b)).2 := by
  induction pre generalizing b with
  | nil => rfl
  | cons r pre ih => exact ih _

/-- Among the requests there is a write that is acknowledged, in the pool `b`
    and with the pool `b'` behind it. -/
def Acked (fs : HostFs) (reqs : List Request) (host : HostState) (p : PathBuf) (off : UInt64)
    (data : Bytes) (b b' : Pool) : Prop :=
  ∃ pre post n, reqs = pre ++ .write p off data :: post ∧ b = after env fs pre (.start host)
    ∧ handle (fs.toVfs (tokio env)) (.write p off data) b = (.write (.ok n), b')

/-- The file at the path holds the bytes. -/
def Held (fs : HostFs) (p : PathBuf) (off : UInt64) (data : Bytes) (b : Pool) : Prop :=
  ∃ l k content, lookup b.host true (fs.joined p) = .ok (.at l k)
    ∧ nodeAt b.host.tree l = some (.file content)
    ∧ sliceBytes off.toNat data.length content = data

/-- What is acknowledged is there, the host has failed in nothing of it, and
    every request finds it, as if each write had waited for its bytes. -/
structure Acknowledged (fs : HostFs) (reqs : List Request) (host : HostState) : Prop where
  held : ∀ p off data b b', Acked env fs reqs host p off data b b' → Held fs p off data b'
  honest : ∀ p off data b b', Acked env fs reqs host p off data b b' →
    ∀ k, b.next ≤ k → k < b'.next → env.faults k = none
  asIf : ∀ pre, pre <+: reqs →
    (runRequests (fs.toVfs (tokio env)) pre (.start host)).1
        = (runRequests (fs.toVfs (flushed env)) pre (.start host)).1
      ∧ (runRequests (fs.toVfs (tokio env)) pre (.start host)).2.host
        = (runRequests (fs.toVfs (flushed env)) pre (.start host)).2.host

/-- The last job of each acknowledged write is done when the write returns,
    and the host does not fail in it. -/
def Prompt (fs : HostFs) (reqs : List Request) (host : HostState) : Prop :=
  ∀ p off data b b', Acked env fs reqs host p off data b b' → data ≠ [] →
    b'.jobs = [] ∧ env.faults (b'.next - 1) = none ∧ off.toNat + data.length ≤ maxOffset

variable {env}

/-- A write whose last job is done without an error. -/
theorem Site.Writing.prompt {data : Bytes} {f : File} {b : Pool} (h : w.Writing env data f b)
    (hp : data ≠ [] → b.jobs = [] ∧ env.faults (b.next - 1) = none
      ∧ w.off + data.length ≤ maxOffset) :
    b.jobs = [] ∧ w.Holds data b ∧ w.Clean env b.next
      ∧ TokimoTokio.settle env f b = (.ok (), b) := by
  rw [TokimoTokio.settle]
  cases h with
  | new _ _ hlast hjobs hb hn =>
      rw [hlast]
      refine ⟨hjobs, hb, fun k h1 h2 => ?_, rfl⟩
      omega
  | pending _ _ done j hlast hjobs hl hb =>
      have hne : done ++ j.data ≠ [] := fun h => hl.data (List.append_eq_nil_iff.mp h).2
      rw [hjobs] at hp
      exact absurd (hp hne).1 (List.cons_ne_nil _ _)
  | finished _ _ done j hlast hjobs hl hb =>
      have hne : done ++ j.data ≠ [] := fun h => hl.data (List.append_eq_nil_iff.mp h).2
      obtain ⟨-, hfault, hfit⟩ := hp hne
      have hnum : j.number = b.next - 1 := by
        have hnext := hl.number
        omega
      have he : j.error env = none := by
        refine (error_none_iff env).mpr ⟨hnum ▸ hfault, ?_⟩
        rw [List.length_append] at hfit
        rw [hl.pos]
        omega
      have hmem : j ∉ b.jobs := hjobs ▸ List.not_mem_nil
      rw [written_ok env he] at hb
      simp only [hlast, he, if_neg hmem]
      exact ⟨hjobs, hb, hl.clean_next he, trivial⟩

theorem slice_fresh (off : Nat) (data : Bytes) :
    sliceBytes off data.length (freshBytes off data) = data := by
  rw [sliceBytes, freshBytes]
  cases data with
  | nil => rfl
  | cons b data =>
      show ((List.replicate off 0 ++ b :: data).drop off).take _ = _
      rw [List.drop_left' (List.length_replicate ..), List.take_length]

/-- Less than the data cannot hold it. -/
theorem slice_short {off : Nat} {sent data : Bytes} (h : sent.length < data.length) :
    sliceBytes off data.length (freshBytes off sent) ≠ data := by
  intro heq
  have hlen := congrArg List.length heq
  rw [sliceBytes, freshBytes, List.length_take, List.length_drop] at hlen
  split at hlen
  · simp at hlen
    omega
  · rw [List.length_append, List.length_replicate] at hlen
    omega

/-- What the file at the path holds is what the site holds. -/
theorem Site.Holds.held_iff {fs : HostFs} {p : PathBuf} {off : UInt64} {k : Nat} {data sent : Bytes}
    {b : Pool} (h : w.Holds sent b) (hoff : w.off = off.toNat)
    (hlook : lookup w.s₀ true (fs.joined p) = .ok (.at w.l k)) :
    Held fs p off data b ↔ sliceBytes off.toNat data.length (freshBytes off.toNat sent) = data := by
  obtain ⟨i, hg, -, hi⟩ := h.here
  have hnode : nodeAt b.host.tree w.l = some (.file (freshBytes w.off sent)) := by
    rw [nodeAt_of_get hg, hi]
  have hpath : lookup b.host true (fs.joined p) = .ok (.at w.l k) := by
    rw [Holding.lookup h, hlook]
  rw [hoff] at hnode
  constructor
  · rintro ⟨l, k', content, hl, hc, hs⟩
    rw [hpath] at hl
    obtain ⟨rfl, -⟩ := Walked.at.inj (Except.ok.inj hl)
    rw [hnode] at hc
    rw [Node.file.inj (Option.some.inj hc)]
    exact hs
  · intro hs
    exact ⟨w.l, k, _, hpath, hnode, hs⟩

/-- A write that holds its bytes when it returns was prompt. -/
theorem Site.Writing.prompt_of_held {fs : HostFs} {p : PathBuf} {off : UInt64} {k : Nat}
    {data : Bytes} {f : File} {b : Pool} (h : w.Writing env data f b) (hoff : w.off = off.toNat)
    (hlook : lookup w.s₀ true (fs.joined p) = .ok (.at w.l k)) (hheld : Held fs p off data b)
    (hne : data ≠ []) :
    b.jobs = [] ∧ env.faults (b.next - 1) = none ∧ off.toNat + data.length ≤ maxOffset := by
  cases h with
  | new _ _ _ _ _ _ => exact absurd rfl hne
  | pending _ _ done j hlast hjobs hl hb =>
      have hshort : done.length < (done ++ j.data).length := by
        rw [List.length_append]
        exact Nat.lt_add_of_pos_right (List.length_pos_of_ne_nil hl.data)
      exact absurd ((hb.held_iff hoff hlook).mp hheld) (slice_short hshort)
  | finished _ _ done j hlast hjobs hl hb =>
      cases he : j.error env with
      | some e =>
          have hshort : (done ++ j.written env).length < (done ++ j.data).length := by
            rw [List.length_append, List.length_append]
            exact Nat.add_lt_add_left (written_short env he hl.data) _
          exact absurd ((hb.held_iff hoff hlook).mp hheld) (slice_short hshort)
      | none =>
          obtain ⟨hfault, hfit⟩ := (error_none_iff env).mp he
          have hnum : b.next - 1 = j.number := by
            have hnext := hl.number
            omega
          refine ⟨hjobs, hnum ▸ hfault, ?_⟩
          rw [List.length_append, ← hoff]
          rw [hl.pos] at hfit
          omega

/-- What an acknowledged write comes to, from an empty pool. -/
theorem acked_cases {fs : HostFs} {p : PathBuf} {off : UInt64} {data : Bytes} {b b' : Pool}
    {n : UInt32} (hb : b.jobs = [])
    (h : handle (fs.toVfs (tokio env)) (.write p off data) b = (.write (.ok n), b')) :
    ∃ (w : Site) (k : Nat) (f : File), w.first = b.next ∧ w.off = off.toNat
      ∧ lookup w.s₀ true (fs.joined p) = .ok (.at w.l k) ∧ w.Writing env data f b' := by
  have hdef : handle (fs.toVfs (tokio env)) (.write p off data) b
      = (fs.write (tokio env) p off data b).map .write id := rfl
  rw [hdef] at h
  rcases write_cases env fs p off data hb with ⟨e, b₁, -, he, -⟩
    | ⟨w, k, f, b₁, hfirst, hoff, hlook, hw, hok, -⟩
  · rw [he] at h
    exact nomatch (Prod.mk.inj h).1
  · rw [hok] at h
    have hb₁ : b₁ = b' := (Prod.mk.inj h).2
    exact ⟨w, k, f, hfirst, hoff, hlook, hb₁ ▸ hw⟩

/-- One request of a prompt run: with and without `flush` it is the same, and
    the pool is empty again. -/
theorem handle_prompt (fs : HostFs) (req : Request) {b : Pool} (hb : b.jobs = [])
    (hp : ∀ p off data n b', req = .write p off data →
      handle (fs.toVfs (tokio env)) req b = (.write (.ok n), b') → data ≠ [] →
      b'.jobs = [] ∧ env.faults (b'.next - 1) = none ∧ off.toNat + data.length ≤ maxOffset) :
    handle (fs.toVfs (tokio env)) req b = handle (fs.toVfs (flushed env)) req b
      ∧ (handle (fs.toVfs (tokio env)) req b).2.jobs = [] := by
  by_cases hreq : ∃ p off data, req = .write p off data
  · obtain ⟨p, off, data, rfl⟩ := hreq
    have ht : handle (fs.toVfs (tokio env)) (.write p off data) b
        = (fs.write (tokio env) p off data b).map .write id := rfl
    have hf : handle (fs.toVfs (flushed env)) (.write p off data) b
        = (fs.write (flushed env) p off data b).map .write id := rfl
    rcases write_cases env fs p off data hb with ⟨e, b₁, hnil, he, he'⟩
      | ⟨w, k, f, b₁, hfirst, hoff, hlook, hw, hok, hflush⟩
    · rw [ht, hf, he, he']
      exact ⟨rfl, hnil⟩
    · have hcond := hp p off data (UInt32.ofNat data.length) b₁ rfl (by rw [ht, hok]; rfl)
      rw [← hoff] at hcond
      obtain ⟨hnil, -, -, hsettle⟩ := hw.prompt hcond
      rw [ht, hf, hok, hflush b₁ hsettle]
      exact ⟨rfl, hnil⟩
  · obtain ⟨h1, h2⟩ := handle_calm env fs (fun p off data h => hreq ⟨p, off, data, h⟩) b
    exact ⟨h1, h2 hb⟩

theorem runRequests_concat {σ : Type} (vfs : TokimoVfs σ) (pre : List Request) (req : Request)
    (s : σ) : runRequests vfs (pre ++ [req]) s
      = ((runRequests vfs pre s).1 ++ [(handle vfs req (runRequests vfs pre s).2).1],
        (handle vfs req (runRequests vfs pre s).2).2) := by
  induction pre generalizing s with
  | nil => rfl
  | cons r pre ih =>
      rw [List.cons_append, runRequests, ih]
      rfl

/-- **A PROMPT RUN** has the answers of a run where each write waits, and
    leaves the same pool. -/
theorem run_prompt {fs : HostFs} {reqs : List Request} {host : HostState}
    (hp : Prompt env fs reqs host) {pre : List Request} (hpre : pre <+: reqs) :
    runRequests (fs.toVfs (tokio env)) pre (.start host)
        = runRequests (fs.toVfs (flushed env)) pre (.start host)
      ∧ (after env fs pre (.start host)).jobs = [] := by
  induction pre using List.reverseRecOn with
  | nil => exact ⟨rfl, rfl⟩
  | append_singleton pre req ih =>
      obtain ⟨hrun, hnil⟩ := ih ((List.prefix_append pre [req]).trans hpre)
      obtain ⟨post, hpost⟩ := hpre
      have hstep := handle_prompt fs req hnil fun p off data n b' hreq hans hne =>
        hp p off data _ b' ⟨pre, post, n, by rw [← hpost, hreq]; simp, rfl, hreq ▸ hans⟩ hne
      refine ⟨?_, ?_⟩
      · rw [runRequests_concat, runRequests_concat, ← hrun]
        rw [after] at hstep
        rw [hstep.1]
      · rw [after_append]
        exact hstep.2

/-- **ACKNOWLEDGED WRITES**: they are kept, and told truly, exactly when the
    pool was prompt. -/
theorem acknowledged_iff (env : Env) (fs : HostFs) (reqs : List Request) (host : HostState) :
    Acknowledged env fs reqs host ↔ Prompt env fs reqs host := by
  constructor
  · intro h
    -- a write that holds its bytes was prompt, so the next one finds the pool empty
    have hall : ∀ pre, pre <+: reqs → Prompt env fs pre host := by
      intro pre
      induction pre using List.reverseRecOn with
      | nil =>
          rintro - p off data b b' ⟨pre, post, n, hnil, -⟩
          exact absurd hnil (by simp)
      | append_singleton pre req ih =>
          intro hpre p off data b b' hacked hne
          have hprompt := ih ((List.prefix_append pre [req]).trans hpre)
          obtain ⟨tail, htail⟩ := hpre
          obtain ⟨pre', post, n, hreqs, hb, hans⟩ := hacked
          rcases List.eq_nil_or_concat post with rfl | ⟨post', last, rfl⟩
          · obtain ⟨rfl, hreq⟩ := List.append_inj' hreqs rfl
            obtain ⟨-, hnil⟩ := run_prompt hprompt (List.prefix_refl pre)
            rw [← hb] at hnil
            obtain ⟨w, k, f, -, hoff, hlook, hw⟩ := acked_cases hnil hans
            have hheld := h.held p off data b b'
              ⟨pre, tail, n, by rw [← htail, (List.cons.inj hreq).1]; simp, hb, hans⟩
            exact hw.prompt_of_held hoff hlook hheld hne
          · have hcut : pre = pre' ++ .write p off data :: post' := by
              have h2 : pre ++ [req] = (pre' ++ .write p off data :: post') ++ [last] := by
                rw [hreqs]
                simp
              exact (List.append_inj' h2 rfl).1
            exact hprompt p off data b b' ⟨pre', post', n, hcut, hb, hans⟩ hne
    exact hall reqs (List.prefix_refl reqs)
  · intro hp
    have hwrite : ∀ p off data b b', Acked env fs reqs host p off data b b' →
        ∃ (w : Site) (k : Nat) (f : File), w.first = b.next ∧ w.off = off.toNat
          ∧ lookup w.s₀ true (fs.joined p) = .ok (.at w.l k) ∧ w.Holds data b'
          ∧ w.Clean env b'.next := by
      intro p off data b b' hacked
      have hcond := hp p off data b b' hacked
      obtain ⟨pre, post, n, hreqs, hb, hans⟩ := hacked
      obtain ⟨-, hnil⟩ := run_prompt hp (hreqs ▸ List.prefix_append pre _)
      rw [← hb] at hnil
      obtain ⟨w, k, f, hfirst, hoff, hlook, hw⟩ := acked_cases hnil hans
      rw [← hoff] at hcond
      obtain ⟨-, hholds, hclean, -⟩ := hw.prompt hcond
      exact ⟨w, k, f, hfirst, hoff, hlook, hholds, hclean⟩
    refine ⟨?_, ?_, ?_⟩
    · intro p off data b b' hacked
      obtain ⟨w, k, f, -, hoff, hlook, hholds, -⟩ := hwrite p off data b b' hacked
      exact (hholds.held_iff hoff hlook).mpr (slice_fresh off.toNat data)
    · intro p off data b b' hacked m hm
      obtain ⟨w, k, f, hfirst, -, -, -, hclean⟩ := hwrite p off data b b' hacked
      exact hclean m (hfirst ▸ hm)
    · intro pre hpre
      obtain ⟨hrun, -⟩ := run_prompt hp hpre
      rw [hrun]
      exact ⟨rfl, rfl⟩

/-! ### Two bytes -/

/-- A host that fails in nothing, and a pool that gets to nothing in time. -/
def lateEnv : Env := { faults := fun _ => none, turns := fun _ => [] }

/-- Two bytes are written to a file and read again. -/
def writeRead : List Request := [.write chunkPath 0 [104, 105], .read chunkPath 0 2]

/-- The bytes are acknowledged, and the next request reads an empty file. -/
theorem acknowledged_not_there : ¬ Acknowledged lateEnv chunkFs writeRead chunkHost := by
  intro h
  have hsame := (h.asIf writeRead (List.prefix_refl _)).1
  revert hsame
  decide +kernel

/-- A host that is out of space, and a pool that finds out at once. -/
def fullEnv : Env :=
  { faults := fun _ => some (0, ⟨.other, "No space left on device (os error 28)"⟩)
    turns := fun _ => [0] }

example : (runRequests (chunkFs.toVfs (tokio fullEnv)) writeRead (.start chunkHost)).1
    = [.write (.ok 2), .read (.ok [])] := by
  decide +kernel

end TokimoTokio
