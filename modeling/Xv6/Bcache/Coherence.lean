import Xv6.Bcache.Invariant

/-! The cache as a whole: no block has two buffers, the list of buffers stays a ring, a
buffer in use is never recycled, and the cache with the disk behaves as a plain map from
blocks to contents. -/

namespace Xv6.Bcache

open Rings Runs Totals Function

variable {τ D : Type*}

/-- The plain map that the cache stands for: what is seen, latest first, and the map after
it. `bread` returns what the map has, `log_write` and `bwrite` set it. -/
inductive Plain (disk : BlockId → D) : List (Event τ D) → (BlockId → D) → Prop
  | nil : Plain disk [] disk
  | read {h : List (Event τ D)} {m : BlockId → D} (t : τ) (id : BlockId) :
      Plain disk h m → Plain disk (.read t id (m id) :: h) m
  | store {h : List (Event τ D)} {m : BlockId → D} (t : τ) (id : BlockId) (v : D) :
      Plain disk h m → Plain disk (.store t id v :: h) (update m id v)

/-- The threads, as far as buffer `i` is concerned. -/
def State.roles (s : State τ D) (i : Ix) : τ → Role := fun t => (s.thread t).role i

/-! ## What a step does -/

/-- A step that concerns buffer `i`. -/
structure OnBuf [DecidableEq τ] (s s' : State τ D) (i : Ix) (e : List (Event τ D)) : Prop where
  here : BufStep (s.buf i) (s.roles i) (s.idequeue.count i) (s.disk (s.buf i).id)
    (s'.buf i) (s'.roles i) (s'.idequeue.count i) (s'.disk (s.buf i).id) e
  buf : ∀ j, j ≠ i → s'.buf j = s.buf j
  roles : ∀ j, j ≠ i → s'.roles j = s.roles j
  queue : ∀ j, j ≠ i → s'.idequeue.count j = s.idequeue.count j
  disk : ∀ id, id ≠ (s.buf i).id → s'.disk id = s.disk id
  links : s'.links = s.links ∨ s'.links = (s.links.unlink (some i)).pushFront none (some i)

/-- A step that concerns no buffer. -/
structure OffBufs (s s' : State τ D) : Prop where
  buf : s'.buf = s.buf
  roles : s'.roles = s.roles
  queue : s'.idequeue = s.idequeue
  disk : s'.disk = s.disk
  links : s'.links = s.links

/-- Thread `t` recycles buffer `i` for block `id`. -/
structure Recycles [DecidableEq τ] (s s' : State τ D) (t : τ) (i : Ix) (id : BlockId) : Prop where
  missing : s.lookup id = none
  victim : s.victim = some i
  here : s'.buf i = { s.buf i with id := id, valid := false, dirty := false, refcnt := 1 }
  stage : (s.roles i t).stage = .idle
  role : s'.roles i = update (s.roles i) t { s.roles i t with stage := .acquire id }
  buf : ∀ j, j ≠ i → s'.buf j = s.buf j
  roles : ∀ j, j ≠ i → s'.roles j = s.roles j
  queue : s'.idequeue = s.idequeue
  disk : s'.disk = s.disk
  links : s'.links = s.links

section Steps

variable {s s' : State τ D} {t : τ} {x : Thread} {i : Ix} {e : List (Event τ D)} {p : Pc}
  {id : BlockId}

/-- The buffer a thread is busy with. -/
def Pc.busy : Pc → Option Ix
  | .acquire i _ | .got i _ | .reading i _ | .writing i | .release i => some i
  | .out | .bget _ | .noBuffers => none

theorem Pc.stage_of_busy {j : Ix} (h : p.busy ≠ some j) : p.stage j = .idle := by
  cases p <;> simp_all [busy, stage]

/-- At most buffer `i`. -/
def Pc.Near (p : Pc) (i : Ix) : Prop := ∀ j, p.busy = some j → j = i

theorem Pc.Near.stage {j : Ix} (h : p.Near i) (hj : j ≠ i) : p.stage j = .idle :=
  Pc.stage_of_busy fun hb => hj (h j hb)

theorem stage_here (hpc : (s.thread t).pc = p) : (s.roles i t).stage = p.stage i := by
  simp [State.roles, Thread.role, hpc]

theorem lookup_id (h : s.lookup id = some i) : (s.buf i).id = id := by
  rw [State.lookup, Option.join_eq_some_iff] at h
  have hp := search_sound h
  simpa using hp

/-- `bget` recycles only what is neither referenced nor dirty. -/
theorem victim_free (h : s.victim = some i) : (s.buf i).refcnt = 0 ∧ (s.buf i).dirty = false := by
  rw [State.victim, Option.join_eq_some_iff] at h
  have hp := search_sound h
  simpa using hp

theorem thread_ideintr (hs : s.ideintr = some s') : s'.thread = s.thread := by
  unfold State.ideintr at hs
  split at hs
  · cases hs
    rfl
  · dsimp only at hs
    split at hs
    · cases hs
    · split at hs <;> cases hs <;> rfl

variable [DecidableEq τ]

theorem roles_of_thread (hs : s'.thread = update s.thread t x) (j : Ix) :
    s'.roles j = update (s.roles j) t (x.role j) := by
  funext u
  by_cases hut : u = t
  · subst hut
    simp [State.roles, hs]
  · simp [update_of_ne hut, State.roles, hs]

theorem roles_of_thread_same (hs : s'.thread = update s.thread t x) {j : Ix}
    (hx : x.role j = (s.thread t).role j) : s'.roles j = s.roles j := by
  rw [roles_of_thread hs, hx]
  exact update_eq_self t (s.roles j)

theorem OnBuf.of_thread {b : Buf τ D} {r : Role} (hs : s'.thread = update s.thread t x)
    (hbuf : s'.buf = update s.buf i b)
    (hx : ∀ j, j ≠ i → x.role j = (s.thread t).role j) (hr : x.role i = r)
    (hb : BufStep (s.buf i) (s.roles i) (s.idequeue.count i) (s.disk (s.buf i).id)
      b (update (s.roles i) t r) (s'.idequeue.count i) (s.disk (s.buf i).id) e)
    (hk : s'.links = s.links ∨ s'.links = (s.links.unlink (some i)).pushFront none (some i) := by
      exact .inl rfl)
    (hq : s'.idequeue = s.idequeue ∨ s'.idequeue = s.idequeue ++ [i] := by exact .inl rfl)
    (hdisk : s'.disk = s.disk := by rfl) : OnBuf s s' i e where
  here := by
    rw [roles_of_thread hs, hr, hbuf, hdisk, update_self]
    exact hb
  buf := fun j hj => by rw [hbuf, update_of_ne hj]
  roles := fun j hj => roles_of_thread_same hs (hx j hj)
  queue := fun j hj => by
    rcases hq with hq | hq <;> rw [hq]
    simp [List.count_append, hj.symm]
  disk := fun _ _ => by rw [hdisk]
  links := hk

theorem OnBuf.of_goto {b : Buf τ D} {st : Stage} {n : Nat}
    (hs : s'.thread = update s.thread t ((s.thread t).goto p))
    (hbuf : s'.buf = update s.buf i b)
    (hb : BufStep (s.buf i) (s.roles i) (s.idequeue.count i) (s.disk (s.buf i).id)
      b (update (s.roles i) t { s.roles i t with stage := st }) n (s.disk (s.buf i).id) e)
    (hnear : (s.thread t).pc.Near i) (hp : p.Near i) (hst : p.stage i = st)
    (hk : s'.links = s.links ∨ s'.links = (s.links.unlink (some i)).pushFront none (some i) := by
      exact .inl rfl)
    (hq : s'.idequeue = s.idequeue ∨ s'.idequeue = s.idequeue ++ [i] := by exact .inl rfl)
    (hn : s'.idequeue.count i = n := by rfl) (hdisk : s'.disk = s.disk := by rfl) :
    OnBuf s s' i e := by
  subst hn
  refine .of_thread hs hbuf ?_ ?_ hb hk hq hdisk
  · intro j hj
    simp [Thread.goto, Thread.role, hp.stage hj, hnear.stage hj]
  · simp [Thread.goto, Thread.role, State.roles, hst]

theorem OnBuf.of_returns (hnear : (s.thread t).pc.Near i)
    (hb : BufStep (s.buf i) (s.roles i) (s.idequeue.count i) (s.disk (s.buf i).id)
      (s.buf i) (update (s.roles i) t { s.roles i t with stage := .idle, held := true })
      (s.idequeue.count i) (s.disk (s.buf i).id) [.read t id (s.buf i).data]) :
    OnBuf s (s.returns t i id).1 i (s.returns t i id).2 := by
  have hbuf : s.buf = update s.buf i (s.buf i) := (update_eq_self i s.buf).symm
  refine .of_thread rfl hbuf ?_ ?_ hb
  · intro j hj
    have hout : Pc.out.stage j = .idle := rfl
    simp [Thread.take, Thread.role, hnear.stage hj, hout, update_of_ne hj]
  · simp [Thread.take, Thread.role, State.roles, Pc.stage]

/-- What a step can do to the buffers. -/
def Acts (s s' : State τ D) (t : τ) (e : List (Event τ D)) : Prop :=
  (∃ i, OnBuf s s' i e) ∨ (OffBufs s s' ∧ e = []) ∨
    ∃ i id, Recycles s s' t i id ∧ (s.thread t).pc = .bget id ∧ e = []

theorem acts_of_goto (hpc : (s.thread t).pc.busy = none) (hp : p.busy = none) :
    Acts s (s.goto t p) t [] := by
  have hroles : (s.goto t p).roles = s.roles := by
    funext j
    refine roles_of_thread_same rfl ?_
    have h1 : (s.thread t).pc.stage j = .idle := Pc.stage_of_busy (by simp [hpc])
    have h2 : p.stage j = .idle := Pc.stage_of_busy (by simp [hp])
    simp [Thread.goto, Thread.role, h1, h2]
  exact .inr (.inl ⟨⟨rfl, hroles, rfl, rfl, rfl⟩, rfl⟩)

theorem acts_of_bget (hpc : (s.thread t).pc = .bget id) (hid : id ≠ .unused) :
    Acts s (s.bget t id) t [] := by
  unfold State.bget
  split
  · rename_i i hi
    obtain rfl := lookup_id hi
    refine .inl ⟨i, .of_goto rfl rfl (.hit t ?_ hid) ?_ ?_ ?_⟩ <;>
      simp_all [Pc.Near, Pc.busy, stage_here hpc, Pc.stage]
  · rename_i hmiss
    split
    · rename_i i hi
      refine .inr (.inr ⟨i, id, ?_, hpc, rfl⟩)
      generalize hs : (s.put i _).goto t (.acquire i id) = s'
      have hset : s'.thread = update s.thread t ((s.thread t).goto (.acquire i id)) := by
        rw [← hs]
        rfl
      have hbuf : s'.buf = update s.buf i
          { s.buf i with id := id, valid := false, dirty := false, refcnt := 1 } := by
        rw [← hs]
        rfl
      exact {
        missing := hmiss
        victim := hi
        here := by rw [hbuf, update_self]
        stage := stage_here hpc
        role := by
          rw [roles_of_thread hset]
          simp [Thread.goto, Thread.role, Pc.stage, State.roles]
        buf := fun j hj => by rw [hbuf, update_of_ne hj]
        roles := fun j hj => by
          refine roles_of_thread_same hset ?_
          simp [Thread.goto, Thread.role, hpc, Pc.stage, hj.symm]
        queue := by rw [← hs]; rfl
        disk := by rw [← hs]; rfl
        links := by rw [← hs]; rfl }
    · exact acts_of_goto (by simp [hpc, Pc.busy]) rfl

theorem acts_of_release (hpc : (s.thread t).pc = .release i) : Acts s (s.release t i) t [] := by
  have hst : (s.roles i t).stage = .release := by simp [stage_here hpc, Pc.stage]
  have hnear : (s.thread t).pc.Near i := by simp [hpc, Pc.Near, Pc.busy]
  have hout : Pc.out.Near i := by simp [Pc.Near, Pc.busy]
  unfold State.release
  dsimp only
  split
  · exact .inl ⟨i, .of_goto rfl rfl (.releases t hst) hnear hout rfl (.inr rfl)⟩
  · exact .inl ⟨i, .of_goto rfl rfl (.releases t hst) hnear hout rfl⟩

theorem acts_of_go (hasked : ∀ id, (s.thread t).pc = .bget id → id ≠ .unused)
    (hs : s.go t = some (s', e)) : Acts s s' t e := by
  have hsame (i : Ix) : s.buf = update s.buf i (s.buf i) := (update_eq_self i s.buf).symm
  unfold State.go at hs
  split at hs
  · rename_i id hpc
    cases hs
    exact acts_of_bget hpc (hasked _ hpc)
  · rename_i i id hpc
    dsimp only at hs
    split at hs
    · rename_i hfree
      cases hs
      refine .inl ⟨i, .of_goto rfl rfl (.acquired t id ?_ hfree) ?_ ?_ ?_⟩ <;>
        simp_all [Pc.Near, Pc.busy, stage_here hpc, Pc.stage]
    · cases hs
  · rename_i i id hpc
    split at hs
    · rename_i hv
      cases hs
      refine .inl ⟨i, .of_returns ?_ (.found t id ?_ hv)⟩ <;>
        simp_all [Pc.Near, Pc.busy, stage_here hpc, Pc.stage]
    · rename_i hv
      cases hs
      have hcount : (s.idequeue ++ [i]).count i = s.idequeue.count i + 1 := by simp
      rw [Bool.not_eq_true] at hv
      refine .inl ⟨i, .of_goto rfl (hsame i) (.asks t id ?_ hv) ?_ ?_ ?_ (.inl rfl) (.inr rfl)
        hcount⟩ <;>
        simp_all [Pc.Near, Pc.busy, stage_here hpc, Pc.stage]
  · rename_i i id hpc
    dsimp only at hs
    split at hs
    · rename_i hv
      rw [Bool.and_eq_true, Bool.not_eq_true'] at hv
      cases hs
      refine .inl ⟨i, .of_returns ?_ (.hasRead t id ?_ hv.1 hv.2)⟩ <;>
        simp_all [Pc.Near, Pc.busy, stage_here hpc, Pc.stage]
    · cases hs
  · rename_i i hpc
    dsimp only at hs
    split at hs
    · rename_i hv
      rw [Bool.and_eq_true, Bool.not_eq_true'] at hv
      cases hs
      refine .inl ⟨i, .of_goto rfl (hsame i) (.hasWritten t ?_ hv.2) ?_ ?_ ?_⟩ <;>
        simp_all [Pc.Near, Pc.busy, stage_here hpc, Pc.stage]
    · cases hs
  · rename_i i hpc
    cases hs
    exact acts_of_release hpc
  · cases hs

/-- The two ends of a request. -/
theorem on_of_ideintr (hs : s.ideintr = some s') : (∃ i, OnBuf s s' i []) ∨ OffBufs s s' := by
  unfold State.ideintr at hs
  split at hs
  · cases hs
    exact .inr ⟨rfl, rfl, rfl, rfl, rfl⟩
  · rename_i i q hq
    dsimp only at hs
    have hpos : 0 < s.idequeue.count i := by simp [hq]
    have hcount : q.count i = s.idequeue.count i - 1 := by simp [hq]
    have hother (j : Ix) (hj : j ≠ i) : q.count j = s.idequeue.count j := by
      simp [hq, hj.symm]
    split at hs
    · cases hs
    · split at hs
      · rename_i hd
        cases hs
        refine .inl ⟨i, ?_, ?_, fun _ _ => rfl, hother, ?_, .inl rfl⟩
        · simp only [State.put, update_self, hcount]
          exact .stored hpos hd
        · exact fun j hj => update_of_ne hj _ _
        · exact fun id hid => update_of_ne hid _ _
      · rename_i hd
        rw [Bool.not_eq_true] at hd
        cases hs
        refine .inl ⟨i, ?_, ?_, fun _ _ => rfl, hother, fun _ _ => rfl, .inl rfl⟩
        · simp only [State.put, update_self, hcount]
          exact .loaded hpos hd
        · exact fun j hj => update_of_ne hj _ _

theorem acts_of_call {a : Act D} (hasked : ∀ id, (s.thread t).pc = .bget id → id ≠ .unused)
    (hdisc : Disciplined s (.thread t a)) (hs : s.step (.thread t a) = some (s', e)) :
    Acts s s' t e := by
  cases a with
  | go => exact acts_of_go hasked hs
  | bread id =>
    obtain ⟨hpc, heq⟩ := Option.ite_none_right_eq_some.1 hs
    cases heq
    exact acts_of_goto (by simp [hpc, Pc.busy]) rfl
  | modify i d =>
    obtain ⟨⟨hpc, hh⟩, heq⟩ := Option.ite_none_right_eq_some.1 hs
    cases heq
    refine .inl ⟨i, .of_thread rfl rfl ?_ ?_ (.modifies t d (stage_here hpc) hh)⟩
    · intro j hj
      simp [Thread.mark, Thread.role, update_of_ne hj]
    · simp [Thread.mark, Thread.role, State.roles]
  | logWrite i =>
    obtain ⟨⟨hpc, hh⟩, heq⟩ := Option.ite_none_right_eq_some.1 hs
    cases heq
    refine .inl ⟨i, .of_thread rfl rfl ?_ ?_ (.logs t (stage_here hpc) hh)⟩
    · intro j hj
      simp [Thread.mark, Thread.role, update_of_ne hj]
    · simp [Thread.mark, Thread.role, State.roles]
  | bwrite i =>
    obtain ⟨⟨hpc, hh⟩, heq⟩ := Option.ite_none_right_eq_some.1 hs
    cases heq
    have hcount : (s.idequeue ++ [i]).count i = s.idequeue.count i + 1 := by simp
    refine .inl ⟨i, .of_thread rfl rfl ?_ ?_
      (r := { s.roles i t with stage := .writing, changed := false }) ?_ (.inl rfl) (.inr rfl)⟩
    · intro j hj
      simp [Thread.mark, Thread.goto, Thread.role, hpc, Pc.stage, update_of_ne hj, hj.symm]
    · simp [Thread.mark, Thread.goto, Thread.role, State.roles, Pc.stage]
    · show BufStep _ _ _ _ _ _ ((s.idequeue ++ [i]).count i) _ _
      rw [hcount]
      exact .writes t (stage_here hpc) hh
  | brelse i =>
    obtain ⟨⟨hpc, hh⟩, heq⟩ := Option.ite_none_right_eq_some.1 hs
    cases heq
    refine .inl ⟨i, .of_thread rfl rfl ?_ ?_ (.unlocks t (stage_here hpc) hh hdisc)⟩
    · intro j hj
      simp [Thread.drop, Thread.role, hpc, Pc.stage, update_of_ne hj, hj.symm]
    · simp [Thread.drop, Thread.role, State.roles, Pc.stage]

/-- Only a call of `bread` brings a thread into `bget`. -/
theorem thread_step {a : Act D} (hs : s.step (.thread t a) = some (s', e)) :
    ∃ x, s'.thread = update s.thread t x ∧ ∀ id, x.pc = .bget id → a = .bread id := by
  cases a with
  | go =>
    simp only [State.step, State.go] at hs
    split at hs
    · cases hs
      unfold State.bget
      split
      · exact ⟨_, rfl, by simp [Thread.goto]⟩
      · split
        · exact ⟨_, rfl, by simp [Thread.goto]⟩
        · exact ⟨_, rfl, by simp [Thread.goto]⟩
    · obtain ⟨-, heq⟩ := Option.ite_none_right_eq_some.1 hs
      cases heq
      exact ⟨_, rfl, by simp [Thread.goto]⟩
    · split at hs <;> cases hs <;> exact ⟨_, rfl, by simp [Thread.goto, Thread.take]⟩
    · obtain ⟨-, heq⟩ := Option.ite_none_right_eq_some.1 hs
      cases heq
      exact ⟨_, rfl, by simp [Thread.take]⟩
    · obtain ⟨-, heq⟩ := Option.ite_none_right_eq_some.1 hs
      cases heq
      exact ⟨_, rfl, by simp [Thread.goto]⟩
    · cases hs
      unfold State.release
      dsimp only
      split <;> exact ⟨_, rfl, by simp [Thread.goto]⟩
    · cases hs
  | bread id =>
    obtain ⟨-, heq⟩ := Option.ite_none_right_eq_some.1 hs
    cases heq
    exact ⟨_, rfl, by simp [Thread.goto]⟩
  | modify i d | logWrite i | bwrite i | brelse i =>
    obtain ⟨⟨hpc, -⟩, heq⟩ := Option.ite_none_right_eq_some.1 hs
    cases heq
    exact ⟨_, rfl, by simp [Thread.mark, Thread.goto, Thread.drop, hpc]⟩

end Steps

/-! ## The invariant -/

/-- The cache stands for the map `m`. -/
structure Inv [Fintype τ] (s : State τ D) (m : BlockId → D) : Prop where
  ring : ∃ l : List Ix, Ring s.links none (l.map some) ∧ l.Perm (List.finRange NBUF)
  unique : ∀ i j, (s.buf i).id = (s.buf j).id → (s.buf i).id ≠ .unused → i = j
  buf : ∀ i, BufInv (s.buf i) (s.roles i) (s.idequeue.count i) (s.disk (s.buf i).id)
    (m (s.buf i).id)
  uncached : ∀ id, (∀ i, (s.buf i).id ≠ id) → s.disk id = m id
  asked : ∀ t id, (s.thread t).pc = .bget id → id ≠ .unused

section Invariant

variable [Fintype τ] {s s' : State τ D} {t : τ} {i : Ix} {e : List (Event τ D)}
  {m disk : BlockId → D} {h : List (Event τ D)}

/-! ## Initially -/

theorem binit_ring : ∃ l : List Ix, Ring binit none (l.map some) ∧ l.Perm (List.finRange NBUF) := by
  suffices ∀ (is : List Ix) (k : Links Node) (l : List Ix), Ring k none (l.map some) →
      (is ++ l).Nodup →
      ∃ l' : List Ix, Ring (is.foldl (fun k i => k.pushFront none (some i)) k) none (l'.map some) ∧
        l'.Perm (is ++ l) by
    obtain ⟨l, hl, hperm⟩ := this (List.finRange NBUF) ⟨fun _ => none, fun _ => none⟩ []
      (.alone rfl rfl) (by simpa using List.nodup_finRange NBUF)
    exact ⟨l, hl, by simpa using hperm⟩
  intro is
  induction is with
  | nil => exact fun k l hl _ => ⟨l, hl, .refl _⟩
  | cons i is ih =>
    intro k l hl hnd
    have hi : some i ∉ none :: l.map some := by
      simp_all
    obtain ⟨l', hl', hperm⟩ := ih _ (i :: l) (hl.pushFront hi) (List.nodup_middle.2 hnd)
    exact ⟨l', hl', hperm.trans List.perm_middle⟩

theorem inv_boot (disk : BlockId → D) (zero : D) : Inv (boot τ disk zero) disk where
  ring := binit_ring
  unique := fun _ _ _ hne => absurd rfl hne
  buf := fun i => by
    constructor
    · exact (total_eq_zero fun _ => rfl).symm
    · simp [boot, State.roles, Thread.role, Role.locks, Pc.stage, Stage.owns]
    · exact fun _ => rfl
    · simp [boot, State.roles, Thread.role, Pc.stage, Stage.wants]
    · exact Nat.zero_le 1
    · exact fun hq => absurd hq (Nat.lt_irrefl 0)
    · intro t
      constructor <;> simp [boot, State.roles, Thread.role, Pc.stage, Stage.owns]
    · exact fun hd => hd
    · exact fun hv => by cases hv
    · exact fun _ => rfl
  uncached := fun _ _ => rfl
  asked := fun _ _ hpc => by cases hpc

/-- `bget` looks at all buffers. -/
theorem Inv.missing (hi : Inv s m) {id : BlockId} (hl : s.lookup id = none) (j : Ix) :
    (s.buf j).id ≠ id := by
  obtain ⟨l, hring, hperm⟩ := hi.ring
  have hlen : (l.map some).length < NBUF + 1 := by
    rw [List.length_map, hperm.length_eq, List.length_finRange]
    exact Nat.lt_succ_self _
  have hj : some j ∈ l.map some := List.mem_map.2 ⟨j, hperm.mem_iff.2 (List.mem_finRange j), rfl⟩
  rw [State.lookup, hring.search_next hlen] at hl
  intro hid
  cases hf : (l.map some).find? (fun n => n.any fun i => (s.buf i).id = id) with
  | none =>
    have hnone := List.find?_eq_none.1 hf _ hj
    simp [hid] at hnone
  | some n =>
    rw [hf, Option.join_some] at hl
    obtain ⟨k, -, hk⟩ := List.mem_map.1 (List.mem_of_find?_eq_some hf)
    rw [← hk] at hl
    cases hl

theorem Inv.off_bufs (hi : Inv s m) (ho : OffBufs s s')
    (hasked : ∀ t id, (s'.thread t).pc = .bget id → id ≠ .unused) : Inv s' m := by
  constructor
  · rw [ho.links]
    exact hi.ring
  · rw [ho.buf]
    exact hi.unique
  · rw [ho.buf, ho.roles, ho.queue, ho.disk]
    exact hi.buf
  · rw [ho.buf, ho.disk]
    exact hi.uncached
  · exact hasked

variable [DecidableEq τ]

theorem Inv.on_buf (hi : Inv s m) (ho : OnBuf s s' i e)
    (hasked : ∀ t id, (s'.thread t).pc = .bget id → id ≠ .unused) :
    Inv s' (update m (s.buf i).id (mapped (m (s.buf i).id) e)) := by
  have hid (j : Ix) : (s'.buf j).id = (s.buf j).id := by
    by_cases hj : j = i
    · rw [hj, ho.here.id_eq]
    · rw [ho.buf j hj]
  constructor
  · obtain ⟨l, hring, hperm⟩ := hi.ring
    rcases ho.links with hk | hk
    · exact ⟨l, by rw [hk]; exact hring, hperm⟩
    · obtain ⟨l1, l2, rfl⟩ := List.append_of_mem (hperm.mem_iff.2 (List.mem_finRange i))
      refine ⟨i :: (l1 ++ l2), ?_, List.perm_middle.symm.trans hperm⟩
      rw [hk]
      rw [List.map_append, List.map_cons] at hring
      rw [List.map_cons, List.map_append]
      exact hring.moveFront
  · intro j k hjk hne
    rw [hid, hid] at hjk
    rw [hid] at hne
    exact hi.unique j k hjk hne
  · intro j
    by_cases hj : j = i
    · subst hj
      rw [hid, update_self]
      exact (hi.buf j).step ho.here
    · have hne : (s.buf j).id ≠ (s.buf i).id := fun heq =>
        hj (hi.unique j i heq (by rw [heq]; exact (hi.buf i).id_ne ho.here))
      rw [hid, ho.buf j hj, ho.roles j hj, ho.queue j hj, ho.disk _ hne, update_of_ne hne]
      exact hi.buf j
  · intro id hun
    have hne : id ≠ (s.buf i).id := fun heq => hun i ((hid i).trans heq.symm)
    rw [ho.disk id hne, update_of_ne hne]
    exact hi.uncached id fun j hj => hun j ((hid j).trans hj)
  · exact hasked

theorem Inv.recycles {id : BlockId} (hi : Inv s m) (hr : Recycles s s' t i id)
    (hne : id ≠ .unused) (hasked : ∀ t id, (s'.thread t).pc = .bget id → id ≠ .unused) :
    Inv s' m := by
  have hmiss := hi.missing hr.missing
  obtain ⟨h0, hd⟩ := victim_free hr.victim
  have hid : (s'.buf i).id = id := by rw [hr.here]
  constructor
  · rw [hr.links]
    exact hi.ring
  · intro j k hjk hused
    by_cases hj : j = i
    · by_cases hk : k = i
      · rw [hj, hk]
      · rw [hj, hid, hr.buf k hk] at hjk
        exact absurd hjk.symm (hmiss k)
    · by_cases hk : k = i
      · rw [hk, hid, hr.buf j hj] at hjk
        exact absurd hjk (hmiss j)
      · rw [hr.buf j hj, hr.buf k hk] at hjk
        rw [hr.buf j hj] at hused
        exact hi.unique j k hjk hused
  · intro j
    by_cases hj : j = i
    · subst hj
      rw [hid, hr.here, hr.role, hr.queue, hr.disk, hi.uncached id hmiss]
      exact (hi.buf j).recycle h0 hne t
    · rw [hr.buf j hj, hr.roles j hj, hr.queue, hr.disk]
      exact hi.buf j
  · intro id' hun
    rw [hr.disk]
    by_cases hold : (s.buf i).id = id'
    · -- What is given up is clean.
      rw [← hold]
      exact (hi.buf i).disk hd
    · refine hi.uncached id' fun j hj => ?_
      by_cases hji : j = i
      · exact hold (by rw [← hji, hj])
      · exact hun j (by rw [hr.buf j hji, hj])
  · exact hasked

variable {l : Label τ D}

theorem Inv.asked_step (hi : Inv s m) (hs : s.step l = some (s', e))
    (hd : Disciplined s l) (t : τ) (id : BlockId) (hpc : (s'.thread t).pc = .bget id) :
    id ≠ .unused := by
  cases l with
  | ideintr =>
    obtain ⟨u, hu, heq⟩ := Option.map_eq_some_iff.1 hs
    cases heq
    rw [thread_ideintr hu] at hpc
    exact hi.asked t id hpc
  | thread u a =>
    obtain ⟨x, hx, hx'⟩ := thread_step hs
    rw [hx] at hpc
    by_cases htu : t = u
    · rw [htu, update_self] at hpc
      obtain rfl := hx' id hpc
      exact hd
    · rw [update_of_ne htu] at hpc
      exact hi.asked t id hpc

/-- What is seen of a step agrees with the map. -/
theorem Plain.on_buf (hp : Plain disk h m) (hi : Inv s m) (ho : OnBuf s s' i e) :
    Plain disk (e ++ h) (update m (s.buf i).id (mapped (m (s.buf i).id) e)) := by
  have hread (t : τ) (id : BlockId) (v : D) (hr : .read t id v ∈ e) :
      id = (s.buf i).id ∧ v = m (s.buf i).id := (hi.buf i).read ho.here hr
  obtain ⟨hhere, -⟩ := ho
  generalize s'.buf i = b', s'.roles i = role', s'.idequeue.count i = q',
    s'.disk (s.buf i).id = d' at hhere
  cases hhere with
  | found t id | hasRead t id =>
    obtain ⟨rfl, hv⟩ := hread t id _ (List.mem_singleton_self _)
    simp only [mapped, update_eq_self, hv]
    exact hp.read t _
  | logs t | writes t => exact hp.store t _ _
  | _ =>
    simp only [mapped, update_eq_self]
    exact hp

/-- **Simulation.** A step of the cache is a step of the map. -/
theorem Inv.step (hi : Inv s m) (hp : Plain disk h m)
    (hs : s.step l = some (s', e)) (hd : Disciplined s l) :
    ∃ m', Inv s' m' ∧ Plain disk (e ++ h) m' := by
  have hasked := hi.asked_step hs hd
  cases l with
  | ideintr =>
    obtain ⟨u, hu, heq⟩ := Option.map_eq_some_iff.1 hs
    cases heq
    rcases on_of_ideintr hu with ⟨i, ho⟩ | ho
    · exact ⟨_, hi.on_buf ho hasked, hp.on_buf hi ho⟩
    · exact ⟨m, hi.off_bufs ho hasked, hp⟩
  | thread t a =>
    rcases acts_of_call (hi.asked t) hd hs with ⟨i, ho⟩ | ⟨ho, rfl⟩ | ⟨i, id, hr, hpc, rfl⟩
    · exact ⟨_, hi.on_buf ho hasked, hp.on_buf hi ho⟩
    · exact ⟨m, hi.off_bufs ho hasked, hp⟩
    · exact ⟨m, hi.recycles hr (hi.asked t id hpc) hasked, hp⟩

/-- A buffer changes its block only when nobody uses it. -/
theorem Inv.recycled (hi : Inv s m) (hs : s.step l = some (s', e))
    (hd : Disciplined s l) (hid : (s'.buf i).id ≠ (s.buf i).id) :
    (s.buf i).locked = none ∧ (s.buf i).refcnt = 0 ∧ (s.buf i).dirty = false := by
  have hon (j : Ix) (e : List (Event τ D)) (ho : OnBuf s s' j e) : False := by
    by_cases hij : i = j
    · subst hij
      exact hid ho.here.id_eq
    · exact hid (by rw [ho.buf i hij])
  cases l with
  | ideintr =>
    obtain ⟨u, hu, heq⟩ := Option.map_eq_some_iff.1 hs
    cases heq
    rcases on_of_ideintr hu with ⟨j, ho⟩ | ho
    · exact (hon j _ ho).elim
    · exact absurd (by rw [ho.buf]) hid
  | thread t a =>
    rcases acts_of_call (hi.asked t) hd hs with ⟨j, ho⟩ | ⟨ho, -⟩ | ⟨j, id, hr, -, -⟩
    · exact (hon j _ ho).elim
    · exact absurd (by rw [ho.buf]) hid
    · have hij : i = j := by
        by_contra hij
        exact hid (by rw [hr.buf i hij])
      subst hij
      obtain ⟨h0, hd⟩ := victim_free hr.victim
      exact ⟨((hi.buf i).unreferenced h0).1, h0, hd⟩

/-- **The buffer cache.** In every disciplined interleaving no block has two buffers, the
list of buffers is a ring through all of them, only an unused clean buffer is recycled, and
what is seen of the cache is what is seen of a plain map that starts as the disk. -/
theorem cache_coherent {zero : D}
    (hr : Run (recording State.step) (fun s l _ => Disciplined s.1 l) (boot τ disk zero, [])
      (s, h)) : (∀ i j, (s.buf i).id = (s.buf j).id → (s.buf i).id ≠ .unused → i = j) ∧
      (∃ l : List Ix, Ring s.links none (l.map some) ∧ l.Perm (List.finRange NBUF)) ∧
      (∀ l s' e, s.step l = some (s', e) → Disciplined s l → ∀ i, (s'.buf i).id ≠ (s.buf i).id →
          (s.buf i).locked = none ∧ (s.buf i).refcnt = 0 ∧ (s.buf i).dirty = false) ∧
      ∃ m, Plain disk h m := by
  have hsim : ∃ m, Inv s m ∧ Plain disk h m := by
    refine hr.invariant (I := fun a => ∃ m, Inv a.1 m ∧ Plain disk a.2 m)
      ⟨disk, inv_boot disk zero, .nil⟩ ?_
    rintro ⟨a, ha⟩ l ⟨b, hb⟩ ⟨m, hi, hp⟩ hs hd
    obtain ⟨e, he, rfl⟩ := recording_some hs
    exact hi.step hp he hd
  obtain ⟨m, hi, hp⟩ := hsim
  exact ⟨hi.unique, hi.ring, fun l s' e hs hd i => hi.recycled hs hd, m, hp⟩

end Invariant

/-- One thread reads a block, changes it and hands it in; then the other reads it. -/
def handOver : List (Label (Fin 2) Nat) :=
  [.thread 0 (.bread ⟨1, 5⟩), .thread 0 .go, .thread 1 (.bread ⟨1, 5⟩), .thread 1 .go,
    .thread 0 .go,
    .thread 0 .go, .ideintr, .thread 0 .go, .thread 0 (.modify 0 7), .thread 0 (.logWrite 0),
    .thread 0 (.brelse 0), .thread 1 .go, .thread 1 .go, .thread 0 .go]

/-- The state after `handOver`, and what is seen of it. -/
def handOverEnd : State (Fin 2) Nat × List (Event (Fin 2) Nat) :=
  final (recording State.step) (boot (Fin 2) (fun id => id.blockno) 0, []) handOver

theorem cache_coherent_handOver :
    handOverEnd.2 = [.read 1 ⟨1, 5⟩ 7, .store 0 ⟨1, 5⟩ 7, .read 0 ⟨1, 5⟩ 5] ∧
      ∃ m, Plain (fun id => id.blockno) handOverEnd.2 m := by
  have hplain (a : State (Fin 2) Nat × List (Event (Fin 2) Nat))
      (hr : Run (recording State.step) (fun s l _ => Disciplined s.1 l)
        (boot (Fin 2) (fun id => id.blockno) 0, []) a) :
      ∃ m, Plain (fun id => id.blockno) a.2 m := (cache_coherent (s := a.1) hr).2.2.2
  refine ⟨by decide +kernel, hplain _ ?_⟩
  exact run_final (g := fun s l => decide (Disciplined s.1 l)) of_decide_eq_true (by decide +kernel)

end Xv6.Bcache
