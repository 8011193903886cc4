import Xv6.Bcache.Model
import Xv6.Lib.Totals

/-! One buffer of the cache. A step concerns at most one buffer, and what it does there is
seen from the buffer, from the part of each thread that is about this buffer, and from the
block of the disk that the buffer stands for. -/

namespace Xv6.Bcache

open Totals Function

variable {τ D : Type*}

/-- Where a thread is, as far as one buffer is concerned. -/
inductive Stage
  | idle
  | acquire (id : BlockId)
  | got (id : BlockId)
  | reading (id : BlockId)
  | writing
  | release
  deriving DecidableEq

/-- What a thread has to do with one buffer. -/
structure Role where
  stage : Stage
  held : Bool
  changed : Bool

def Pc.stage (p : Pc) (j : Ix) : Stage :=
  match p with
  | .acquire i id => if i = j then .acquire id else .idle
  | .got i id => if i = j then .got id else .idle
  | .reading i id => if i = j then .reading id else .idle
  | .writing i => if i = j then .writing else .idle
  | .release i => if i = j then .release else .idle
  | .out | .bget _ | .noBuffers => .idle

def Thread.role (x : Thread) (j : Ix) : Role := ⟨x.pc.stage j, x.held j, x.changed j⟩

/-- The block a thread has asked for. -/
def Stage.wants : Stage → Option BlockId
  | .acquire id | .got id | .reading id => some id
  | _ => none

/-- A thread in `bread` that has the sleeplock. -/
def Stage.owns : Stage → Bool
  | .got _ | .reading _ => true
  | _ => false

def Stage.reads : Stage → Bool
  | .reading _ => true
  | _ => false

def Stage.refs : Stage → Int
  | .idle | .writing => 0
  | _ => 1

/-- The references of a thread to the buffer. -/
def Role.refs (r : Role) : Int := r.stage.refs + if r.held then 1 else 0

/-- The thread has the sleeplock of the buffer. -/
def Role.locks (r : Role) : Bool := r.stage.owns || r.held

theorem Role.refs_nonneg (r : Role) : 0 ≤ r.refs := by
  unfold refs
  cases r.stage <;> simp only [Stage.refs] <;> split <;> decide

variable {r : Role}

theorem Role.refs_of_locks (h : r.locks) : 0 < r.refs := by
  unfold refs
  unfold locks at h
  cases hs : r.stage <;> cases hh : r.held <;> simp_all [Stage.refs, Stage.owns]

theorem Role.idle_of_refs (h : r.refs = 0) :
    r.held = false ∧ (r.stage = .idle ∨ r.stage = .writing) := by
  unfold refs at h
  cases hs : r.stage <;> cases hh : r.held <;> simp_all [Stage.refs]

/-- What can happen to a buffer: the buffer, the roles of the threads, how often it is
queued and the block of the disk, before and after, and what is seen of it. -/
inductive BufStep [DecidableEq τ] (b : Buf τ D) (role : τ → Role) (q : Nat) (d : D) :
    Buf τ D → (τ → Role) → Nat → D → List (Event τ D) → Prop
  | hit (t : τ) : (role t).stage = .idle → b.id ≠ .unused →
      BufStep b role q d { b with refcnt := b.refcnt + 1 }
        (update role t { role t with stage := .acquire b.id }) q d []
  | acquired (t : τ) (id : BlockId) : (role t).stage = .acquire id → b.locked = none →
      BufStep b role q d { b with locked := some t }
        (update role t { role t with stage := .got id }) q d []
  | found (t : τ) (id : BlockId) : (role t).stage = .got id → b.valid →
      BufStep b role q d b (update role t { role t with stage := .idle, held := true }) q d
        [.read t id b.data]
  | asks (t : τ) (id : BlockId) : (role t).stage = .got id → b.valid = false →
      BufStep b role q d b (update role t { role t with stage := .reading id }) (q + 1) d []
  | hasRead (t : τ) (id : BlockId) : (role t).stage = .reading id → b.valid → b.dirty = false →
      BufStep b role q d b (update role t { role t with stage := .idle, held := true }) q d
        [.read t id b.data]
  | modifies (t : τ) (v : D) : (role t).stage = .idle → (role t).held →
      BufStep b role q d { b with data := v }
        (update role t { role t with changed := true }) q d []
  | logs (t : τ) : (role t).stage = .idle → (role t).held →
      BufStep b role q d { b with dirty := true }
        (update role t { role t with changed := false }) q d [.store t b.id b.data]
  | writes (t : τ) : (role t).stage = .idle → (role t).held →
      BufStep b role q d { b with dirty := true }
        (update role t { role t with stage := .writing, changed := false }) (q + 1) d
        [.store t b.id b.data]
  | hasWritten (t : τ) : (role t).stage = .writing → b.dirty = false →
      BufStep b role q d b (update role t { role t with stage := .idle }) q d []
  | unlocks (t : τ) : (role t).stage = .idle → (role t).held → (role t).changed = false →
      BufStep b role q d { b with locked := none }
        (update role t { role t with stage := .release, held := false }) q d []
  | releases (t : τ) : (role t).stage = .release →
      BufStep b role q d { b with refcnt := b.refcnt - 1 }
        (update role t { role t with stage := .idle }) q d []
  | stored : 0 < q → b.dirty = true →
      BufStep b role q d { b with valid := true, dirty := false } role (q - 1) b.data []
  | loaded : 0 < q → b.dirty = false →
      BufStep b role q d { b with data := d, valid := true, dirty := false } role (q - 1) d []

/-- What holds of a thread and a buffer whose flag `B_VALID` is `valid`. -/
structure Role.Ok (valid : Bool) (r : Role) : Prop where
  valid : r.held = true → valid = true
  taking : r.stage.owns = true → r.held = false
  writing : r.stage = .writing → r.held = true ∧ r.changed = false
  changed : r.changed = true → r.held = true

variable {v : Bool}

theorem Role.Ok.set_valid (h : r.Ok v) : r.Ok true :=
  { h with valid := fun _ => rfl }

theorem Role.Ok.moves (h : r.Ok v) {st : Stage} (hw : st ≠ .writing)
    (ho : st.owns = true → r.held = false) : Role.Ok v { r with stage := st } where
  valid := h.valid
  taking := ho
  writing := fun hst => absurd hst hw
  changed := h.changed

theorem Role.Ok.takes (r : Role) (hv : v = true) :
    Role.Ok v { r with stage := .idle, held := true } where
  valid := fun _ => hv
  taking := fun ho => by cases ho
  writing := fun hst => by cases hst
  changed := fun _ => rfl

theorem Role.Ok.handsIn (h : r.Ok v) (hh : r.held = true) (st : Stage)
    (ho : st.owns = false) : Role.Ok v { r with stage := st, changed := false } where
  valid := h.valid
  taking := fun hst => by simp [ho] at hst
  writing := fun _ => ⟨hh, rfl⟩
  changed := fun hc => by cases hc

theorem Role.Ok.drops (hc : r.changed = false) :
    Role.Ok v { r with stage := .release, held := false } where
  valid := fun hh => by cases hh
  taking := fun _ => rfl
  writing := fun hst => by cases hst
  changed := fun hc' => by simp [hc] at hc'

/-- What holds of a buffer `b` that is queued `q` times, where its block is `d` on the disk
and `m` in the map that the cache stands for. -/
structure BufInv [Fintype τ] (b : Buf τ D) (role : τ → Role) (q : Nat) (d m : D) : Prop where
  refcnt : (b.refcnt : Int) = total Role.refs role
  lock : ∀ t, b.locked = some t ↔ (role t).locks = true
  named : b.id = .unused → b.refcnt = 0
  wants : ∀ t id, (role t).stage.wants = some id → b.id = id
  once : q ≤ 1
  /-- A request is waited for, and not yet done. -/
  request : 0 < q → ∃ t, (role t).stage.reads = true ∧ b.valid = false ∨
    (role t).stage = .writing ∧ b.dirty = true
  roles : ∀ t, (role t).Ok b.valid
  dirty : b.dirty = true → b.valid = true
  data : b.valid = true → (∀ t, (role t).changed = false) → b.data = m
  disk : b.dirty = false → d = m

/-- The map after the events of a step, at the block of the buffer. -/
def mapped (m : D) : List (Event τ D) → D
  | [.store _ _ v] => v
  | _ => m

section

variable {b b' : Buf τ D} {role role' : τ → Role} {q q' : Nat} {d d' m : D} {e : List (Event τ D)}
  {t : τ}

theorem BufStep.id_eq [DecidableEq τ] (hs : BufStep b role q d b' role' q' d' e) :
    b'.id = b.id := by
  cases hs <;> rfl

variable [Fintype τ]

theorem BufInv.holder_unique (h : BufInv b role q d m) {u : τ} (ht : (role t).locks = true)
    (hu : (role u).locks = true) : t = u := by
  have h1 := (h.lock t).2 ht
  have h2 := (h.lock u).2 hu
  rw [h1] at h2
  exact Option.some.inj h2

theorem BufInv.requester (h : BufInv b role q d m) (hq : 0 < q) :
    ∃ t, (role t).locks = true ∧ (role t).stage ≠ .idle ∧ ∀ id, (role t).stage ≠ .got id := by
  obtain ⟨t, ⟨hr, -⟩ | ⟨hw, -⟩⟩ := h.request hq
  · refine ⟨t, ?_, ?_, ?_⟩ <;> cases hs : (role t).stage <;>
      simp_all [Role.locks, Stage.owns, Stage.reads]
  · refine ⟨t, ?_, ?_, ?_⟩ <;> simp [Role.locks, hw, ((h.roles t).writing hw).1]

/-- A buffer whose holder is `t` has no changes of other threads. -/
theorem BufInv.unchanged (h : BufInv b role q d m) (ht : (role t).locks = true)
    (hc : (role t).changed = false) (u : τ) : (role u).changed = false := by
  by_contra hu
  rw [Bool.not_eq_false] at hu
  have hheld := (h.roles u).changed hu
  have heq : t = u := h.holder_unique ht (by simp [Role.locks, hheld])
  rw [heq, hu] at hc
  cases hc

/-- A thread that is about to queue the buffer finds it not queued. -/
theorem BufInv.not_queued (h : BufInv b role q d m) (ht : (role t).locks = true)
    (hst : (role t).stage = .idle ∨ ∃ id, (role t).stage = .got id) : q = 0 := by
  by_contra hq
  obtain ⟨u, hu, hne, hgot⟩ := h.requester (Nat.pos_of_ne_zero hq)
  obtain rfl := h.holder_unique ht hu
  rcases hst with hi | ⟨id, hg⟩
  · exact hne hi
  · exact hgot id hg

/-- Nobody has to do with a buffer that is not referenced. -/
theorem BufInv.unreferenced (h : BufInv b role q d m) (h0 : b.refcnt = 0) :
    b.locked = none ∧ q = 0 ∧ ∀ t, (role t).refs = 0 ∧ (role t).stage = .idle ∧
      (role t).held = false ∧ (role t).changed = false := by
  have hrefs (t : τ) : (role t).refs = 0 :=
    eq_zero_of_total (fun u => (role u).refs_nonneg) (by rw [← h.refcnt, h0]; rfl) t
  have hfree (t : τ) : (role t).locks ≠ true := fun hl => by
    have := Role.refs_of_locks hl
    have := hrefs t
    omega
  refine ⟨?_, ?_, fun t => ?_⟩
  · by_contra hl
    obtain ⟨t, ht⟩ := Option.ne_none_iff_exists'.1 hl
    exact hfree t ((h.lock t).1 ht)
  · by_contra hq
    obtain ⟨t, ht, -⟩ := h.requester (Nat.pos_of_ne_zero hq)
    exact hfree t ht
  · obtain ⟨hh, hst⟩ := Role.idle_of_refs (hrefs t)
    refine ⟨hrefs t, ?_, hh, ?_⟩
    · rcases hst with hst | hst
      · exact hst
      · have := ((h.roles t).writing hst).1
        simp [hh] at this
    · by_contra hc
      have := (h.roles t).changed (by simpa using hc)
      simp [hh] at this

variable [DecidableEq τ]

section

variable (h : BufInv b role q d m)

include h

theorem BufInv.refcnt_step (hs : BufStep b role q d b' role' q' d' e) :
    (b'.refcnt : Int) = total Role.refs role' := by
  have href := h.refcnt
  cases hs with
  | stored | loaded => exact href
  | releases t hst =>
    have hle := le_total (w := Role.refs) (f := role) (fun u => (role u).refs_nonneg) t
    rw [total_update, ← href]
    rw [← href] at hle
    simp only [Role.refs, hst, Stage.refs] at hle ⊢
    split at hle <;> simp_all <;> omega
  | hit t hst | acquired t _ hst | asks t _ hst | hasWritten t hst | modifies t _ hst | logs t hst
  | writes t hst =>
    rw [total_update, ← href]
    simp [Role.refs, hst, Stage.refs]
  | unlocks t hst hh =>
    rw [total_update, ← href]
    simp [Role.refs, hst, hh, Stage.refs]
  | found t id hst | hasRead t id hst =>
    have hh := (h.roles t).taking (by simp [hst, Stage.owns])
    rw [total_update, ← href]
    simp [Role.refs, hst, hh, Stage.refs]

theorem BufInv.lock_step (hs : BufStep b role q d b' role' q' d' e)
    (u : τ) : b'.locked = some u ↔ (role' u).locks = true := by
  have hu := h.lock u
  cases hs with
  | stored | loaded => exact hu
  | unlocks t hst hh =>
    -- No other thread has the lock.
    have hother : (role u).locks = true → t = u := h.holder_unique (by simp [Role.locks, hh])
    by_cases hut : u = t
    · simp [hut, Role.locks, Stage.owns]
    · simp only [update_of_ne hut, reduceCtorEq, false_iff]
      exact fun hl => hut (hother hl).symm
  | acquired t id hst hfree =>
    by_cases hut : u = t
    · simp [hut, Role.locks, Stage.owns]
    · simp only [update_of_ne hut, ← hu, hfree, reduceCtorEq, iff_false]
      exact fun heq => hut (Option.some.inj heq).symm
  | hit t hst | found t _ hst | asks t _ hst | hasRead t _ hst | modifies t _ hst | logs t hst
  | writes t hst | hasWritten t hst | releases t hst =>
    rw [hu]
    by_cases hut : u = t
    · subst hut
      simp [Role.locks, hst, Stage.owns]
    · rw [update_of_ne hut]

section

variable (hs : BufStep b role q d b' role' q' d' e)

include hs

theorem BufInv.once_step : q' ≤ 1 := by
  have hq := h.once
  cases hs with
  | asks t id hst =>
    rw [h.not_queued (by simp [Role.locks, hst, Stage.owns]) (.inr ⟨id, hst⟩)]
  | writes t hst hh => rw [h.not_queued (by simp [Role.locks, hh]) (.inl hst)]
  | stored | loaded => omega
  | _ => exact hq

theorem BufInv.request_step (hq : 0 < q') : ∃ t, (role' t).stage.reads = true ∧ b'.valid = false ∨
      (role' t).stage = .writing ∧ b'.dirty = true := by
  have hold := h.request
  cases hs with
  | asks t id hst hv => exact ⟨t, .inl ⟨by simp [Stage.reads], hv⟩⟩
  | writes t hst => exact ⟨t, .inr ⟨by simp, rfl⟩⟩
  | stored | loaded =>
    have := h.once
    omega
  | found t _ hst | hit t hst | acquired t _ hst | modifies t _ hst | logs t hst
  | unlocks t hst | releases t hst | hasRead t _ hst hv | hasWritten t hst hv =>
    obtain ⟨u, hu⟩ := hold hq
    have hut : u ≠ t := by
      rintro rfl
      rw [hst] at hu
      simp_all [Stage.reads]
    refine ⟨u, ?_⟩
    rw [update_of_ne hut]
    rcases hu with hu | hu
    · exact .inl hu
    · exact .inr (by simp_all)

theorem BufInv.roles_step : ∀ u, (role' u).Ok b'.valid := by
  have hold := h.roles
  have hset (t : τ) (r : Role) (hr : r.Ok b.valid) : ∀ u, (update role t r u).Ok b.valid :=
    (forall_update_iff role fun _ r => r.Ok _).2 ⟨hr, fun u _ => hold u⟩
  cases hs with
  | stored | loaded => exact fun u => (hold u).set_valid
  | hit t | hasWritten t | releases t =>
    exact hset t _ ((hold t).moves (by simp) (by simp [Stage.owns]))
  | acquired t id _ hfree =>
    -- The lock is free, so this thread does not have it either.
    have hheld : (role t).held = false := by
      have hl := (h.lock t).not.1 (by simp [hfree])
      simp_all [Role.locks]
    exact hset t _ ((hold t).moves (by simp) fun _ => hheld)
  | asks t id hst =>
    have hheld := (hold t).taking (by simp [hst, Stage.owns])
    exact hset t _ ((hold t).moves (by simp) fun _ => hheld)
  | found t _ _ hv | hasRead t _ _ hv => exact hset t _ (.takes _ hv)
  | modifies t _ hst hh =>
    exact hset t _ { hold t with
      writing := fun hw => by simp [hst] at hw
      changed := fun _ => hh }
  | logs t hst hh =>
    have hin := (hold t).handsIn hh (role t).stage (by simp [hst, Stage.owns])
    exact hset t _ hin
  | writes t hst hh => exact hset t _ ((hold t).handsIn hh .writing rfl)
  | unlocks t hst hh hc => exact hset t _ (.drops hc)

theorem BufInv.wants_step
    (u : τ) (id : BlockId) (hw : (role' u).stage.wants = some id) : b'.id = id := by
  have hu := h.wants u id
  cases hs <;> grind [Stage.wants, update_apply]

theorem BufInv.named_step (hid : b'.id = .unused) : b'.refcnt = 0 := by
  have hu := h.named
  cases hs with
  | hit t _ hne => exact absurd hid hne
  | releases => rw [hu hid]
  | _ => exact hu hid

theorem BufInv.dirty_step (hd : b'.dirty = true) : b'.valid = true := by
  cases hs with
  | logs t _ hh | writes t _ hh => exact (h.roles t).valid hh
  | stored | loaded => rfl
  | _ => exact h.dirty hd

theorem BufInv.data_step
    (hv : b'.valid = true) (hc : ∀ t, (role' t).changed = false) : b'.data = mapped m e := by
  have hset {t : τ} {r : Role} (hu : ∀ u, (update role t r u).changed = false)
      (hr : r.changed = (role t).changed) (u : τ) : (role u).changed = false := by
    obtain ⟨ht, hother⟩ := (forall_update_iff role fun _ r => r.changed = false).1 hu
    by_cases hut : u = t
    · rw [hut, ← hr, ht]
    · exact hother u hut
  cases hs with
  | modifies t =>
    have := hc t
    simp at this
  | logs | writes => rfl
  | stored _ hd => exact h.data (h.dirty hd) hc
  | loaded _ hd => exact h.disk hd
  | _ t => exact h.data hv (hset hc rfl)

theorem BufInv.disk_step (hd : b'.dirty = false) : d' = mapped m e := by
  cases hs with
  | logs | writes => cases hd
  | stored hq hdirty =>
    -- The request is a write, and its thread waits with its changes handed in.
    obtain ⟨t, ⟨-, hv⟩ | ⟨hst, -⟩⟩ := h.request hq
    · rw [h.dirty hdirty] at hv
      cases hv
    · obtain ⟨hh, hc⟩ := (h.roles t).writing hst
      exact h.data (h.dirty hdirty) (h.unchanged (by simp [Role.locks, hh]) hc)
  | loaded _ hdirty => exact h.disk hdirty
  | _ => exact h.disk hd

theorem BufInv.step : BufInv b' role' q' d' (mapped m e) where
  refcnt := h.refcnt_step hs
  lock := h.lock_step hs
  named := h.named_step hs
  wants := h.wants_step hs
  once := h.once_step hs
  request := h.request_step hs
  roles := h.roles_step hs
  dirty := h.dirty_step hs
  data := h.data_step hs
  disk := h.disk_step hs

/-- What `bread` returns is the block of the map. -/
theorem BufInv.read {id : BlockId} {v : D} (hr : .read t id v ∈ e) : id = b.id ∧ v = m := by
  cases hs with
  | found t id hst hv | hasRead t id hst hv =>
    obtain ⟨rfl, rfl, rfl⟩ : _ ∧ _ ∧ _ := by simpa using hr
    have hheld := (h.roles t).taking (by simp [hst, Stage.owns])
    have hc : (role t).changed = false := by
      by_contra hc
      have := (h.roles t).changed (by simpa using hc)
      simp [hheld] at this
    refine ⟨(h.wants t id (by simp [hst, Stage.wants])).symm, ?_⟩
    exact h.data hv (h.unchanged (by simp [Role.locks, hst, Stage.owns]) hc)
  | logs | writes => simp at hr
  | _ => cases hr

end

end

/-- A buffer that something happens to stands for a block. -/
theorem BufInv.id_ne (h : BufInv b role q d m) (hs : BufStep b role q d b' role' q' d' e) :
    b.id ≠ .unused := by
  have hrefs (t : τ) (ht : 0 < (role t).refs) : b.id ≠ .unused := by
    intro hid
    have hle := le_total (w := Role.refs) (f := role) (fun u => (role u).refs_nonneg) t
    rw [← h.refcnt, h.named hid] at hle
    omega
  have hlocks (t : τ) (ht : (role t).locks = true) := hrefs t (Role.refs_of_locks ht)
  cases hs with
  | hit _ _ hid => exact hid
  | stored hq | loaded hq =>
    obtain ⟨t, ht, -⟩ := h.requester hq
    exact hlocks t ht
  | acquired t _ hst | releases t hst =>
    refine hrefs t ?_
    rw [Role.refs, hst]
    simp only [Stage.refs]
    split <;> decide
  | found t _ hst | asks t _ hst | hasRead t _ hst =>
    exact hlocks t (by simp [Role.locks, hst, Stage.owns])
  | hasWritten t hst =>
    exact hlocks t (by simp [Role.locks, ((h.roles t).writing hst).1])
  | modifies t _ _ hh | logs t _ hh | writes t _ hh | unlocks t _ hh =>
    exact hlocks t (by simp [Role.locks, hh])

/-- A buffer that is given to a block which has no buffer. -/
theorem BufInv.recycle (h : BufInv b role q d m) (h0 : b.refcnt = 0) {id : BlockId}
    (hid : id ≠ .unused) {v : D} (t : τ) :
    BufInv { b with id := id, valid := false, dirty := false, refcnt := 1 }
      (update role t { role t with stage := .acquire id }) q v v := by
  obtain ⟨hl, rfl, hidle⟩ := h.unreferenced h0
  obtain ⟨hrefs, hst, hh, hc⟩ := hidle t
  have hrole : ({ role t with stage := .acquire id } : Role) = ⟨.acquire id, false, false⟩ := by
    simp [hh, hc]
  have hset (P : τ → Role → Prop) (ht : P t ⟨.acquire id, false, false⟩)
      (hu : ∀ u, (role u).stage = .idle → (role u).held = false → (role u).changed = false →
        P u (role u)) : ∀ u, P u (update role t ⟨.acquire id, false, false⟩ u) :=
    (forall_update_iff role P).2 ⟨ht, fun u _ => hu u (hidle u).2.1 (hidle u).2.2.1 (hidle u).2.2.2⟩
  rw [hrole]
  constructor
  · rw [total_update, hrefs, ← h.refcnt, h0]
    rfl
  · refine hset (fun u r => b.locked = some u ↔ r.locks = true) ?_ ?_
    · simp [hl, Role.locks, Stage.owns]
    · intro u h1 h2 _
      simp [hl, Role.locks, h1, h2, Stage.owns]
  · exact fun heq => absurd heq hid
  · refine hset (fun u r => ∀ i, r.stage.wants = some i → id = i) ?_ ?_
    · simp [Stage.wants]
    · intro u h1 _ _
      simp [h1, Stage.wants]
  · exact Nat.zero_le 1
  · exact fun hq => absurd hq (Nat.lt_irrefl 0)
  · refine hset (fun u r => r.Ok false) ?_ ?_
    · constructor <;> simp
    · intro u h1 h2 h3
      constructor <;> simp [h1, h2, h3]
  · exact fun hd => hd
  · exact fun hv => by cases hv
  · exact fun _ => rfl

end

end Xv6.Bcache
