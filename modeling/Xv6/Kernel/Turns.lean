import Xv6.Kernel.Frame
import Xv6.Kernel.Step

/-! The steps of the kernel, one by one: a constructor of `Turn` for each way in which a
section of `proc.c` or an interrupt can end. The functions are taken apart here and nowhere
else; what is said of all steps elsewhere follows from `turn_of_step`. -/

namespace Xv6

/-- Neither unused nor a zombie. -/
def Thread.Alive (t : Thread) : Prop := t.state ≠ .TUNUSED ∧ t.state ≠ .TZOMBIE

/-- The contexts that no invariant speaks about. -/
def Context.plain : Context → Bool
  | .killLoop _ | .safeExit | .execBody | .lockLoop _ _ | .unlockWake _ => false
  | _ => true

/-- The sections that can pass threads to `remove_thread`. -/
def Context.removes : Context → Bool
  | .exit | .killLoop _ | .joinLoop _ _ | .waitLoop => true
  | .call .exec | .call .exit | .call .wait | .call (.kthreadJoin _) => true
  | _ => false

/-- The sections that can make the running thread a zombie. -/
def Context.ends : Context → Bool
  | .kexit | .exit | .call .kthreadExit | .call .exit | .call .exec => true
  | _ => false

/-- The sections that call `kalloc` for a kernel stack. -/
def Context.allocs : Context → Bool
  | .call .kthreadCreate | .call .fork => true
  | _ => false

theorem Context.plain_of_ends {x : Context} (h : x.ends) : x.plain := by
  cases x <;> simp_all [Context.ends, Context.plain]

/-- The thread a label is a step of. -/
def Label.thread : Label → Option ThreadRef
  | .dispatch r | .rouse r | .yield r | .timer r | .fault r | .syscall r _ | .run r _ _
  | .block r _ => some r
  | .notify _ => none

/-- A thread is scheduled, or its section ends in a plain context and the thread goes on. -/
structure Thread.Goes (t t' : Thread) : Prop where
  tid : t'.tid = t.tid
  killed : t'.killed = t.killed
  mutex : t'.mutex = t.mutex
  kstack : t'.kstack = t.kstack
  alive : t.Alive
  state : t'.state = .TRUNNING ∨ t'.state = .TRUNNABLE
  context : t'.context = t.context ∨
    (t.state = .TRUNNING ∧ t'.context.plain ∧ (t.context.plain ∨ t.context = .execBody))

variable {y : Context}

theorem Thread.Goes.runs {t : Thread} (hrun : t.state = .TRUNNING)
    (hx : t.context.plain ∨ t.context = .execBody) (hy : y.plain) :
    t.Goes { t with context := y } :=
  ⟨rfl, rfl, rfl, rfl, by simp [Alive, hrun], .inl hrun, .inr ⟨hrun, hy, hx⟩⟩

namespace Kernel

/-- Thread `c` runs the section that follows its context `x`. -/
def Acts (k : Kernel) (l : Label) (c : ThreadRef) (x : Context) : Prop :=
  (∃ page copied, l = .run c page copied) ∧ (k.thread c).state = .TRUNNING ∧
    (k.thread c).context = x

/-- The threads that a step passes to `remove_thread`. -/
def removals (k : Kernel) : Label → List ThreadRef
  | .run c _ _ =>
    match (k.thread c).context with
    | .call .exec | .call .exit | .exit => if (k.thread c).killed then [] else k.victims c
    | .killLoop _ => k.victims c
    | .call (.kthreadJoin tid) =>
      match (List.finRange NTHREAD).find? fun i => (k.thread (c.1, i)).tid = tid with
      | some i => if (k.thread (c.1, i)).state = .TZOMBIE then [(c.1, i)] else []
      | none => []
    | .joinLoop i _ => if (k.thread (c.1, i)).state = .TZOMBIE then [(c.1, i)] else []
    | .call .wait | .waitLoop =>
      match k.zombieChild c.1 with
      | some p => slots p
      | none => []
    | _ => []
  | _ => []

/-- A `fork` or `kthread_create` that finds a free entry calls `kalloc`, and keeps the
page unless `copyuvm` fails. -/
def allocates (k : Kernel) : Label → Bool
  | .run c _ copied =>
    match (k.thread c).context with
    | .call .kthreadCreate => (k.freeSlot c.1).isSome
    | .call .fork => k.freeProc.isSome && copied
    | _ => false
  | _ => false

/-- No thread loses its kernel stack and no thread gets one. -/
def Stackless (k : Kernel) (l : Label) : Prop := k.removals l = [] ∧ k.allocates l = false

/-- Why the running thread `s` calls `sleep` in a step: the channel and where it goes
on. -/
inductive Nap (k : Kernel) (l : Label) (s : ThreadRef) : Chan → Context → Prop
  | other {a : Nat} (h : (k.thread s).context.elsewhere) :
      Nap k l s (.other a) (k.thread s).context
  | lock {m : MutexIx} {mid : Int} : Nap k l s (.mutex m) (.lockLoop m mid)
  | join {i : Fin NTHREAD} {tid : Int} (htid : (k.thread (s.1, i)).tid = tid)
      (ha : (k.thread (s.1, i)).Alive) : Nap k l s (.thread (s.1, i)) (.joinLoop i tid)
  | wait (hz : k.zombieChild s.1 = none) : Nap k l s (.proc s.1) .waitLoop

/-- How thread `t` becomes a zombie. -/
inductive Dies (k : Kernel) (l : Label) (t : ThreadRef) : Kernel → Prop
  /-- By `kthread_exit`, if it is not the last one. -/
  | exits {x : Context} (ha : Acts k l t x) (hothers : k.othersAlive t) :
      Dies k l t ((k.setThread t fun t => { t with state := .TZOMBIE, context := .dead }).wakeup2
        t.1 (.thread t))
  /-- By the first branch of `kill_other_threads`. -/
  | killed {x : Context} (ha : Acts k l t x) (hk : (k.thread t).killed) :
      Dies k l t ((k.wakeup1 (.thread t)).setThread t
        fun t => { t with state := .TZOMBIE, context := .dead })

/-- Thread `c` runs a scan of `kill_other_threads` from context `x`: it is in the
loop, or comes from `exec` or from `exit`, unmarked. -/
inductive Enters (k : Kernel) (c : ThreadRef) : Caller → Context → Prop
  | loop {a : Caller} : Enters k c a (.killLoop a)
  | exec (hk : (k.thread c).killed = false) : Enters k c .exec (.call .exec)
  | exit {x : Context} (hk : (k.thread c).killed = false) (hinit : c.1 ≠ initproc)
      (hx : x = .call .exit ∨ x = .exit) : Enters k c .exit x

/-- The steps that move threads between live states and plain contexts and change nothing else
but `killed` flags of processes. -/
inductive Calmly (k : Kernel) (l : Label) : Kernel → Prop
  | goes {c : ThreadRef} {f : Thread → Thread} (hl : l.thread = some c) (hq : Stackless k l)
      (hg : (k.thread c).Goes (f (k.thread c))) : Calmly k l (k.setThread c f)
  | sleeps {c : ThreadRef} {w : Chan} {y : Context} (hl : l.thread = some c) (hq : Stackless k l)
      (hrun : (k.thread c).state = .TRUNNING)
      (hy : (y = (k.thread c).context ∧ y.elsewhere) ∨ (y.plain ∧ (k.thread c).context.plain))
      (why : Nap k l c w y) : Calmly k l (k.sleep c w y)
  | notify {a : Nat} (hl : l = .notify a) : Calmly k l (k.wakeup1 (.other a))
  | marks {c : ThreadRef} {p : ProcIx} {y : Context} (hl : l.thread = some c) (hq : Stackless k l)
      (hrun : (k.thread c).state = .TRUNNING) (hx : (k.thread c).context.plain) (hy : y.plain)
      (why : p = c.1 ∨ Acts k l c (.call (.kill (k.proc p).pid))) :
      Calmly k l ((k.setProc p fun p => { p with killed := true }).setThread c
        fun t => { t with context := y })

/-- `Turn k l k'`: how step `l` led from `k` to `k'`. -/
inductive Turn (k : Kernel) (l : Label) : Kernel → Prop
  | calm {k' : Kernel} (h : Calmly k l k') : Turn k l k'
  | dies {k' : Kernel} {t : ThreadRef} {x : Context} (ha : Acts k l t x) (hx : x.ends)
      (hq : Stackless k l) (hd : Dies k l t k') : Turn k l k'
  | alloc {c : ThreadRef} {m : MutexIx} (ha : Acts k l c (.call .mutexAlloc))
      (hm : k.findMutex 0 = some m) : Turn k l (k.allocEntry c m)
  | dealloc {c : ThreadRef} {mid : Int} {m : MutexIx}
      (ha : Acts k l c (.call (.mutexDealloc mid))) (hm : k.findMutex mid = some m)
      (hu : (k.mutex m).state ≠ .MLOCKED) :
      Turn k l (((k.freeEntry c m).log (.dealloc mid)).sysret c 0)
  | take {c : ThreadRef} {mid : Int} {m : MutexIx} {x : Context} (ha : Acts k l c x)
      (hx : (x = .call (.mutexLock mid) ∧ k.findMutex mid = some m) ∨ x = .lockLoop m mid)
      (hq : Stackless k l) (hu : (k.mutex m).state = .MUNLOCKED) : Turn k l (k.takeEntry c m mid)
  | lockSleep {c : ThreadRef} {mid : Int} {m : MutexIx} {x : Context} (ha : Acts k l c x)
      (hx : (x = .call (.mutexLock mid) ∧ k.findMutex mid = some m) ∨ x = .lockLoop m mid)
      (hq : Stackless k l) (hu : (k.mutex m).state = .MLOCKED) :
      Turn k l (k.sleep c (.mutex m) (.lockLoop m mid))
  | unlock {c o : ThreadRef} {mid : Int} {m : MutexIx}
      (ha : Acts k l c (.call (.mutexUnlock mid))) (hm : k.findMutex mid = some m)
      (hu : (k.mutex m).state = .MLOCKED) (ho : (k.mutex m).mythread = some o)
      (htid : (k.thread o).tid = (k.thread c).tid) : Turn k l (k.clearEntry c m mid)
  | wake {c : ThreadRef} {m : MutexIx} (ha : Acts k l c (.unlockWake m)) :
      Turn k l ((k.wakeup1 (.mutex m)).sysret c 0)
  | create {c t : ThreadRef} {a : Nat} {copied : Bool} (hl : l = .run c (some a) copied)
      (ha : Acts k l c (.call .kthreadCreate)) (ht : k.freeSlot c.1 = some t) :
      Turn k l ((k.startThread t a).sysret c k.nexttid)
  | createFail {c t : ThreadRef} {copied : Bool} (hl : l = .run c none copied)
      (ha : Acts k l c (.call .kthreadCreate)) (ht : k.freeSlot c.1 = some t) :
      Turn k l ((k.spoilThread t).sysret c (-1))
  | fork {c : ThreadRef} {p : ProcIx} {a : Nat} (hl : l = .run c (some a) true)
      (ha : Acts k l c (.call .fork)) (hp : k.freeProc = some p) :
      Turn k l ((((k.takeProc p).setProc p fun q => { q with
        state := .PUSED, parent := some c.1 }).startThread (p, 0) a).sysret c k.nextpid)
  | forkFail {c : ThreadRef} {p : ProcIx} {page : Option Nat} {copied : Bool}
      (hl : l = .run c page copied) (hfail : k.allocates l = false ∨ page = none)
      (ha : Acts k l c (.call .fork)) (hp : k.freeProc = some p) :
      Turn k l (((k.takeProc p).spoilThread (p, 0)).sysret c (-1))
  | join {c t : ThreadRef} {x : Context} (ha : Acts k l c x) (hx : x.plain)
      (hn : x.allocs = false) (hp : t.1 = c.1) (ht : (k.thread t).state = .TZOMBIE)
      (hr : k.removals l = [t]) : Turn k l ((k.removeThread c t).sysret c 0)
  | scan {c : ThreadRef} {a : Caller} {x : Context} (ha : Acts k l c x) (hx : Enters k c a x)
      (hr : k.removals l = k.victims c) : Turn k l (k.killTurn c a)
  | exited {c : ThreadRef} (ha : Acts k l c .safeExit) : Turn k l (k.safeExit c)
  | reap {c : ThreadRef} {p : ProcIx} {x : Context} (ha : Acts k l c x)
      (hx : x = .call .wait ∨ x = .waitLoop)
      (hp : k.zombieChild c.1 = some p) (hr : k.removals l = slots p) :
      Turn k l ((k.reap c p).sysret c (k.proc p).pid)

variable {k k' : Kernel} {l : Label} {c : ThreadRef} {x : Context}

/-- Most sections pass no thread to `remove_thread`. -/
theorem removals_of_acts (ha : Acts k l c x) (hx : x.removes = false) : k.removals l = [] := by
  obtain ⟨⟨page, copied, rfl⟩, _, rfl⟩ := ha
  cases h : (k.thread c).context with
  | call y => rw [h] at hx; cases y <;> simp_all [removals, Context.removes]
  | _ => rw [h] at hx; simp_all [removals, Context.removes]

theorem allocates_of_acts (ha : Acts k l c x) (hx : x.allocs = false) : k.allocates l = false := by
  obtain ⟨⟨page, copied, rfl⟩, _, rfl⟩ := ha
  unfold allocates
  simp only
  split
  · rename_i e
    rw [e] at hx
    cases hx
  · rename_i e
    rw [e] at hx
    cases hx
  · rfl

theorem Enters.allocs {a : Caller} (h : Enters k c a x) : x.allocs = false := by
  cases h with
  | loop | exec hk => rfl
  | exit hk hinit hx => rcases hx with rfl | rfl <;> rfl

theorem Acts.thread (ha : Acts k l c x) : l.thread = some c := by
  obtain ⟨⟨page, copied, rfl⟩, _⟩ := ha
  rfl

section Sections

variable (ha : Acts k l c x)

include ha

theorem Acts.used : (k.thread c).state ≠ .TUNUSED := by simp [ha.2.1]

theorem Acts.stackless (hr : x.removes = false) (hn : x.allocs = false) : Stackless k l :=
  ⟨removals_of_acts ha hr, allocates_of_acts ha hn⟩

theorem turn_goes (hx : x.plain ∨ x = .execBody) (hy : y.plain) (hq : Stackless k l) :
    Turn k l (k.setThread c fun t => { t with context := y }) :=
  .calm (.goes ha.thread hq (.runs ha.2.1 (ha.2.2 ▸ hx) hy))

theorem turn_sysret (hx : x.plain ∨ x = .execBody) (hq : Stackless k l) (v : Int) :
    Turn k l (k.sysret c v) :=
  turn_goes ha hx rfl hq

/-- A system call returns at once. -/
theorem turn_returns {y : Call} (hx : x = .call y) (hr : x.removes = false)
    (hn : x.allocs = false) (v : Int) : Turn k l (k.sysret c v) :=
  turn_sysret ha (.inl (by rw [hx]; rfl)) (ha.stackless hr hn) v

theorem turn_sleep {w : Chan} (hx : x.plain) (hy : y.plain) (hq : Stackless k l)
    (why : Nap k l c w y) : Turn k l (k.sleep c w y) :=
  .calm (.sleeps ha.thread hq ha.2.1 (.inr ⟨hy, ha.2.2 ▸ hx⟩) why)

theorem turn_lockTurn {mid : Int} {m : MutexIx} (hq : Stackless k l)
    (hx : (x = .call (.mutexLock mid) ∧ k.findMutex mid = some m) ∨ x = .lockLoop m mid) :
    Turn k l (k.lockTurn c m mid) := by
  unfold lockTurn
  split
  · rename_i hu
    exact .take ha hx hq hu
  · rename_i hu
    refine .lockSleep ha hx hq ?_
    cases h : (k.mutex m).state with
    | MUNLOCKED => exact absurd h hu
    | MLOCKED => rfl

theorem turn_kthreadExit (hx : x.ends) (hq : Stackless k l) : Turn k l (k.kthreadExit c) := by
  unfold kthreadExit
  split
  · rename_i hothers
    exact .dies ha hx hq (.exits ha hothers)
  · exact turn_goes ha (.inl (Context.plain_of_ends hx)) rfl hq

theorem turn_joinTurn {i : Fin NTHREAD} {tid : Int} (hx : x.plain) (hn : x.allocs = false)
    (hr : k.removals l = if (k.thread (c.1, i)).state = .TZOMBIE then [(c.1, i)] else []) :
    Turn k l (k.joinTurn c i tid) := by
  have hal := allocates_of_acts ha hn
  unfold joinTurn
  simp only
  split
  · rename_i hz
    rw [if_neg hz.2.1] at hr
    exact turn_sleep ha hx rfl ⟨hr, hal⟩ (.join hz.1 ⟨hz.2.2, hz.2.1⟩)
  · split
    · rename_i hz
      rw [if_pos hz] at hr
      exact .join ha hx hn rfl hz hr
    · rename_i hz
      rw [if_neg hz] at hr
      exact turn_sysret ha (.inl hx) ⟨hr, hal⟩ _

theorem turn_waitTurn (hx : x = .call .wait ∨ x = .waitLoop)
    (hr : k.removals l = match k.zombieChild c.1 with | some p => slots p | none => []) :
    Turn k l (k.waitTurn c) := by
  have hplain : x.plain := by rcases hx with rfl | rfl <;> rfl
  have hal := allocates_of_acts ha (by rcases hx with rfl | rfl <;> rfl)
  unfold waitTurn
  split
  · rename_i p hp
    simp only [hp] at hr
    exact .reap ha hx hp hr
  · rename_i hp
    simp only [hp] at hr
    split
    · exact turn_sysret ha (.inl hplain) ⟨hr, hal⟩ _
    · exact turn_sleep ha hplain rfl ⟨hr, hal⟩ (.wait hp)

theorem turn_killOtherThreads {a : Caller} (hx : x.ends) (hn : x.allocs = false)
    (he : (k.thread c).killed = false → Enters k c a x)
    (hr : k.removals l = if (k.thread c).killed then [] else k.victims c) :
    Turn k l (k.killOtherThreads c a) := by
  unfold killOtherThreads
  split
  · rename_i hk
    rw [if_pos hk] at hr
    exact .dies ha hx ⟨hr, allocates_of_acts ha hn⟩ (.killed ha hk)
  · rename_i hk
    rw [if_neg hk] at hr
    exact .scan ha (he (by simpa using hk)) hr

theorem turn_exit (hx : x = .call .exit ∨ x = .exit)
    (hr : k.removals l = if (k.thread c).killed then [] else k.victims c)
    (h : k.exit c = some k') : Turn k l k' := by
  unfold exit at h
  split at h <;> cases h
  rename_i hinit
  refine turn_killOtherThreads ha ?_ ?_ (fun hk => .exit hk hinit hx) hr
  · rcases hx with rfl | rfl <;> rfl
  · rcases hx with rfl | rfl <;> rfl

end Sections

theorem turn_runCall {page : Option Nat} {copied : Bool} {y : Call}
    (hl : l = .run c page copied) (ha : Acts k l c (.call y))
    (h : k.runCall c page copied y = some k') : Turn k l k' := by
  have hctx := ha.2.2
  cases y with
  | exit => exact turn_exit ha (.inl rfl) (by simp only [removals, hl, hctx]) h
  | fork =>
    cases h
    unfold fork
    split
    · rename_i p hp
      split
      · exact .fork hl ha hp
      · rename_i hfail
        refine .forkFail hl ?_ ha hp
        cases page with
        | none => exact .inr rfl
        | some a =>
          cases copied with
          | true => exact absurd rfl (hfail a rfl)
          | false => exact .inl (by simp [allocates, hl, hctx])
    · rename_i hp
      exact turn_sysret ha (.inl rfl) ⟨removals_of_acts ha rfl, by simp [allocates, hl, hctx, hp]⟩ _
  | wait => cases h; exact turn_waitTurn ha (.inl rfl) (by simp only [removals, hl, hctx])
  | exec =>
    cases h
    exact turn_killOtherThreads ha rfl rfl .exec (by simp only [removals, hl, hctx])
  | kill pid =>
    cases h
    unfold kill
    split
    · rename_i p hp
      have hpid := List.find?_some hp
      rw [decide_eq_true_eq] at hpid
      exact .calm (.marks ha.thread (ha.stackless rfl rfl) ha.2.1 (by rw [hctx]; rfl) rfl
        (.inr (hpid ▸ ha)))
    · exact turn_returns ha rfl rfl rfl _
  | kthreadCreate =>
    cases h
    unfold kthreadCreate
    split
    · rename_i t ht
      split
      · exact .create hl ha ht
      · exact .createFail hl ha ht
    · rename_i ht
      exact turn_sysret ha (.inl rfl) ⟨removals_of_acts ha rfl, by simp [allocates, hl, hctx, ht]⟩ _
  | kthreadExit => cases h; exact turn_kthreadExit ha rfl (ha.stackless rfl rfl)
  | kthreadJoin tid =>
    cases h
    unfold kthreadJoin
    split
    · rename_i i hi
      exact turn_joinTurn ha rfl rfl (by simp only [removals, hl, hctx, hi])
    · rename_i hi
      exact turn_sysret ha (.inl rfl)
        ⟨by simp only [removals, hl, hctx, hi], allocates_of_acts ha rfl⟩ _
  | mutexAlloc =>
    cases h
    unfold kthreadMutexAlloc
    split
    · rename_i m hm
      exact .alloc ha hm
    · exact turn_returns ha rfl rfl rfl _
  | mutexDealloc mid =>
    cases h
    unfold kthreadMutexDealloc mutexFree
    cases hm : k.findMutex mid with
    | none => exact turn_returns ha rfl rfl rfl _
    | some m =>
      by_cases hu : (k.mutex m).state = .MLOCKED
      · simpa only [hu, ↓reduceIte] using turn_returns ha rfl rfl rfl _
      · simpa only [hu, ↓reduceIte] using Turn.dealloc ha hm hu
  | mutexLock mid =>
    cases h
    unfold kthreadMutexLock
    split
    · rename_i m hm
      split
      · exact turn_returns ha rfl rfl rfl _
      · exact turn_lockTurn ha (ha.stackless rfl rfl) (.inl ⟨rfl, hm⟩)
    · exact turn_returns ha rfl rfl rfl _
  | mutexUnlock mid =>
    cases h
    unfold kthreadMutexUnlock
    split
    · rename_i m hm
      split
      · exact turn_returns ha rfl rfl rfl _
      · rename_i h
        obtain ⟨hu, ho⟩ := not_or.1 h
        obtain ⟨o, ho, htid⟩ := Option.map_eq_some_iff.1 (not_not.1 ho)
        refine .unlock ha hm ?_ ho htid
        cases hs : (k.mutex m).state with
        | MUNLOCKED => exact absurd hs hu
        | MLOCKED => rfl
    · exact turn_returns ha rfl rfl rfl _
  | _ => cases h; exact turn_returns ha rfl rfl rfl _

/-- The two tests of `trap` lead to a plain context. -/
theorem plain_of_tests {b b' : Bool} (hy : y.plain) :
    (if b then Context.kexit else if b' then .exit else y).plain := by
  cases b <;> cases b' <;> first | rfl | exact hy

theorem turn_runContext {page : Option Nat} {copied : Bool} (hl : l = .run c page copied)
    (ha : Acts k l c x) (h : k.runContext c page copied x = some k') : Turn k l k' := by
  obtain ⟨_, hrun, hctx⟩ := id ha
  cases x with
  | user | dead => cases h
  | resumed =>
    cases h
    refine .calm (.goes ha.thread (ha.stackless rfl rfl) (.runs hrun (.inl (by rw [hctx]; rfl)) ?_))
    split <;> rfl
  | call y => exact turn_runCall hl ha h
  | ret v =>
    cases h
    exact .calm (.goes ha.thread (ha.stackless rfl rfl)
      (.runs hrun (.inl (by rw [hctx]; rfl)) (plain_of_tests rfl)))
  | kexit => cases h; exact turn_kthreadExit ha rfl (ha.stackless rfl rfl)
  | exit => exact turn_exit ha (.inr rfl) (by simp only [removals, hl, hctx]) h
  | killLoop a => cases h; exact .scan ha .loop (by simp only [removals, hl, hctx])
  | safeExit => cases h; exact .exited ha
  | execBody => cases h; exact turn_sysret ha (.inr rfl) (ha.stackless rfl rfl) _
  | lockLoop m mid => cases h; exact turn_lockTurn ha (ha.stackless rfl rfl) (.inr rfl)
  | unlockWake m => cases h; exact .wake ha
  | joinLoop i tid => cases h; exact turn_joinTurn ha rfl rfl (by simp only [removals, hl, hctx])
  | waitLoop => cases h; exact turn_waitTurn ha (.inr rfl) (by simp only [removals, hl, hctx])

/-- **Inversion of a step.** -/
theorem turn_of_step (h : k.step l = some k') : Turn k l k' := by
  cases l with
  | dispatch r =>
    simp only [step] at h
    split at h <;> cases h
    rename_i hr
    exact .calm (.goes rfl ⟨rfl, rfl⟩
      ⟨rfl, rfl, rfl, rfl, by simp [Thread.Alive, hr.2], .inl rfl, .inl rfl⟩)
  | rouse r =>
    simp only [step] at h
    split at h <;> cases h
    rename_i hr
    exact .calm (.goes rfl ⟨rfl, rfl⟩
      ⟨rfl, rfl, rfl, rfl, by simp [Thread.Alive, hr.2.1], .inr rfl, .inl rfl⟩)
  | yield r =>
    simp only [step] at h
    split at h <;> cases h
    rename_i hr
    exact .calm (.goes rfl ⟨rfl, rfl⟩
      ⟨rfl, rfl, rfl, rfl, by simp [Thread.Alive, hr.1], .inr rfl, .inl rfl⟩)
  | timer r =>
    simp only [step] at h
    split at h
    · rename_i hr
      have hx : (k.thread r).context.plain ∨ (k.thread r).context = .execBody :=
        .inl (by rw [hr.2]; rfl)
      split at h
      · cases h
        exact .calm (.goes rfl ⟨rfl, rfl⟩ (.runs hr.1 hx rfl))
      · split at h <;> cases h
        · exact .calm (.goes rfl ⟨rfl, rfl⟩ (.runs hr.1 hx rfl))
        · exact .calm (.goes rfl ⟨rfl, rfl⟩ ⟨rfl, rfl, rfl, rfl, by simp [Thread.Alive, hr.1],
            .inr rfl, .inr ⟨hr.1, rfl, hx⟩⟩)
    · cases h
  | fault r =>
    simp only [step] at h
    split at h <;> cases h
    rename_i hr
    exact .calm (.marks rfl ⟨rfl, rfl⟩ hr.1 (by rw [hr.2]; rfl) rfl (.inl rfl))
  | syscall r y =>
    simp only [step] at h
    split at h <;> cases h
    rename_i hr
    exact .calm (.goes rfl ⟨rfl, rfl⟩ (.runs hr.1 (.inl (by rw [hr.2]; rfl)) (plain_of_tests rfl)))
  | run r page copied =>
    simp only [step] at h
    split at h
    · rename_i hrun
      exact turn_runContext rfl ⟨⟨page, copied, rfl⟩, hrun, rfl⟩ h
    · cases h
  | block r a =>
    simp only [step] at h
    split at h <;> cases h
    rename_i hr
    exact .calm (.sleeps rfl ⟨rfl, rfl⟩ hr.1 (.inl ⟨rfl, hr.2⟩) (.other hr.2))
  | notify a => cases h; exact .calm (.notify rfl)

/-! ## The death of a thread -/

section Death

variable {s t : ThreadRef}

theorem Dies.self (h : Dies k l t k') :
    k'.thread t = { k.thread t with state := .TZOMBIE, context := .dead } := by
  cases h with
  | exits ha hothers => simp [wakeup2, Thread.wake]
  | killed ha hk => simp [Thread.wake, ha.2.1]

theorem Dies.state (h : Dies k l t k') : (k'.thread t).state = .TZOMBIE := by rw [h.self]

theorem Dies.context (h : Dies k l t k') : (k'.thread t).context = .dead := by rw [h.self]

/-- The other records change only by a wake-up, and in the same process whoever waits
for `t` is woken. -/
theorem Dies.other (h : Dies k l t k') (hs : s ≠ t) :
    (k'.thread s = k.thread s ∧ s.1 ≠ t.1) ∨ k'.thread s = (k.thread s).wake (.thread t) := by
  cases h with
  | exits ha hothers =>
    by_cases e : s.1 = t.1
    · exact .inr (by simp [wakeup2, e, hs])
    · exact .inl ⟨by simp [wakeup2, e, hs], e⟩
  | killed ha hk => exact .inr (by simp [hs])

end Death

end Kernel
end Xv6
