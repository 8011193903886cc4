import Xv6.Kernel.Invariant

/-! What a step does to the kernel stacks and to the running threads. A step writes
the record of the thread it is a step of and wakes others, or it starts a thread, or it
removes some (`Touch`). Only a new thread gets a kernel stack, only threads passed to
`remove_thread` lose theirs, and no thread starts or stops running in the step of
another one. -/

namespace Xv6

namespace Kernel

variable {k k' : Kernel} {l : Label} {c s t : ThreadRef} {x : Context}

/-- What a step writes to the thread records. -/
inductive Touch (k : Kernel) (l : Label) : Kernel → Prop
  | moves {k' : Kernel} (hr : k.removals l = []) (hp : k.allocates l = false)
      (self : ∀ c, l.thread = some c → (k'.thread c).kstack = (k.thread c).kstack ∧
        (k.thread c).state ≠ .TUNUSED)
      (other : ∀ s, l.thread ≠ some s → Woken (k.thread s) (k'.thread s)) : Touch k l k'
  | starts {k' : Kernel} {c t : ThreadRef} {a : Nat} {copied : Bool}
      (hl : l = .run c (some a) copied) (hr : k.removals l = []) (hp : k.allocates l)
      (hrun : (k.thread c).state = .TRUNNING)
      (unused : (k.thread t).state = .TUNUSED) (ht : (k'.thread t).state = .TRUNNABLE)
      (stack : (k'.thread t).kstack = some a)
      (self : (k'.thread c).kstack = (k.thread c).kstack)
      (other : ∀ s, s ≠ t → s ≠ c → k'.thread s = k.thread s) : Touch k l k'
  | spoils {k' : Kernel} {c t : ThreadRef} {page : Option Nat} {copied : Bool}
      (hl : l = .run c page copied) (hr : k.removals l = [])
      (hp : k.allocates l = false ∨ page = none)
      (hrun : (k.thread c).state = .TRUNNING)
      (unused : (k.thread t).state = .TUNUSED) (ht : (k'.thread t).state = .TUNUSED)
      (stack : (k'.thread t).kstack = none)
      (self : (k'.thread c).kstack = (k.thread c).kstack)
      (other : ∀ s, s ≠ t → s ≠ c → k'.thread s = k.thread s) : Touch k l k'
  | removes {k' : Kernel} {c : ThreadRef} {page : Option Nat} {copied : Bool}
      (hl : l = .run c page copied) (hp : k.allocates l = false)
      (hrun : (k.thread c).state = .TRUNNING) (hc : c ∉ k.removals l)
      (idle : ∀ s ∈ k.removals l, (k.thread s).state ≠ .TRUNNING)
      (self : (k'.thread c).kstack = (k.thread c).kstack)
      (gone : ∀ s ∈ k.removals l, (k'.thread s).kstack = none ∧ (k'.thread s).state = .TUNUSED)
      (other : ∀ s, s ∉ k.removals l → s ≠ c → (k'.thread s).kstack = (k.thread s).kstack ∧
        (k'.thread s).state = (k.thread s).state) : Touch k l k'

/-! ## The sections -/

section

variable (hl : l.thread = some c) (hu : (k.thread c).state ≠ .TUNUSED) (hr : k.removals l = [])
  (hp : k.allocates l = false)

include hl hu hr hp

/-- Only the record of the thread that takes the step is written. -/
theorem Touch.only (hst : (k'.thread c).kstack = (k.thread c).kstack)
    (ho : ∀ s, s ≠ c → k'.thread s = k.thread s) : Touch k l k' := by
  refine .moves hr hp ?_ ?_
  · intro r hlr
    rw [hl] at hlr
    cases hlr
    exact ⟨hst, hu⟩
  · intro s hs
    rw [ho s (by rintro rfl; exact hs hl)]
    exact .same

theorem touch_setThread {f : Thread → Thread}
    (hst : (f (k.thread c)).kstack = (k.thread c).kstack) : Touch k l (k.setThread c f) := by
  refine .only hl hu hr hp ?_ ?_
  · rw [setThread_thread, if_pos rfl]
    exact hst
  · intro s hs
    rw [setThread_thread, if_neg hs]

end

section Sections

variable (ha : Acts k l c x)

include ha

/-- The running thread keeps its stack, and others are woken. -/
theorem Acts.touch (hq : Stackless k l) (hst : (k'.thread c).kstack = (k.thread c).kstack)
    (ho : ∀ s, s ≠ c → Woken (k.thread s) (k'.thread s)) : Touch k l k' := by
  refine .moves hq.1 hq.2 ?_ ?_
  · intro r hlr
    rw [ha.thread] at hlr
    cases hlr
    exact ⟨hst, ha.used⟩
  · intro s hs
    refine ho s ?_
    rintro rfl
    exact hs ha.thread

/-- The sections on the mutex table. -/
theorem Moves.touch (hs : Moves k k' c) (hst : (k'.thread c).kstack = (k.thread c).kstack)
    (hq : Stackless k l) : Touch k l k' := ha.touch hq hst hs.other

theorem Removes.touch {vs : List ThreadRef} (hi : Inv k) (hs : Removes k k' c vs)
    (hn : x.allocs = false) (hr : k.removals l = vs) : Touch k l k' := by
  obtain ⟨page, copied, hl⟩ := ha.1
  obtain ⟨m, v, hc⟩ := hs.caller hi.mutexes
  subst hr
  refine .removes hl (allocates_of_acts ha hn) ha.2.1 hs.notMem ?_ (by rw [hc]) ?_ ?_
  · intro s hm hrun
    exact hs.idle s hm (by simp [Thread.Alive, hrun])
  · intro s hm
    rw [hs.gone hm]
    exact ⟨rfl, rfl⟩
  · intro s hm hne
    rw [hs.other hm hne]
    exact ⟨rfl, rfl⟩

theorem touch_killTurn {a : Caller} (hi : Inv k) (hp : x.allocs = false)
    (hr : k.removals l = k.victims c) : Touch k l (k.killTurn c a) := by
  obtain ⟨⟨page, copied, hl⟩, hrun, _⟩ := id ha
  have hsw := killScan_swept (c := c) hi.mutexes
  have hvictim : ∀ s ∈ k.victims c, s.1 = c.1 ∧ k.victim c s = true := by
    intro s hs
    exact ⟨mem_slots.1 (List.mem_of_mem_filter hs), (List.mem_filter.1 hs).2⟩
  have hne : ∀ s ∈ k.victims c, s ≠ c := by
    rintro s hs rfl
    have hv := (hvictim s hs).2
    simp [victim, hrun] at hv
  refine .removes hl (allocates_of_acts ha hp) hrun ?_ ?_ ?_ ?_ ?_
  · rw [hr]
    exact fun hc => hne c hc rfl
  · intro s hs hst
    have hv := (hvictim s (hr ▸ hs)).2
    simp [victim, hst] at hv
  · have hcaller : ((k.killScan c).2.thread c).kstack = (k.thread c).kstack := by
      rcases hsw.caller with e | e <;> rw [e]
    rcases killTurn_cases k c a with ⟨_, e⟩ | ⟨_, e⟩ <;> rw [e, setThread_thread, if_pos rfl]
    · exact hcaller
    · exact hcaller
  · intro s hs
    rw [hr] at hs
    obtain ⟨hsp, hv⟩ := hvictim s hs
    rw [killTurn_thread k a (hne s hs), if_pos hsp, scanned, if_pos hv]
    exact ⟨rfl, rfl⟩
  · intro s hs hsc
    rw [killTurn_thread k a hsc]
    split
    · rename_i hsp
      have hv : ¬ k.victim c s = true := by
        intro hv
        exact hs (hr ▸ List.mem_filter.2 ⟨mem_slots.2 hsp, hv⟩)
      rw [scanned, if_neg hv]
      split <;> exact ⟨rfl, rfl⟩
    · exact ⟨rfl, rfl⟩

end Sections

/-! ## All steps -/

/-- **What a step writes to the thread records.** -/
theorem touch_of_step (hi : Inv k) (h : k.step l = some k') : Touch k l k' := by
  cases turn_of_step h with
  | calm hc =>
    cases hc with
    | goes hl hq hg => exact touch_setThread hl hg.alive.1 hq.1 hq.2 hg.kstack
    | sleeps hl hq hrun hy why => exact touch_setThread hl (by simp [hrun]) hq.1 hq.2 rfl
    | notify hl =>
      subst hl
      exact .moves rfl rfl (fun _ e => by cases e) fun s _ => .wake _ .same
    | marks hl hq hrun hx hy why =>
      refine .only hl (by simp [hrun]) hq.1 hq.2 (by simp) fun s hs => ?_
      simp [hs]
  | dies ha hx hq hd => exact ha.touch hq (by rw [hd.self]) fun _ => hd.woken
  | alloc ha hm =>
    exact Moves.touch ha (moves_alloc ha.2.1) (by simp [allocEntry, sysret]) (ha.stackless rfl rfl)
  | dealloc ha hm hu =>
    exact Moves.touch ha (moves_dealloc ha.2.1 _) (by simp [freeEntry, sysret])
      (ha.stackless rfl rfl)
  | take ha hx hq hu =>
    exact Moves.touch ha (moves_take ha.2.1) (by simp [takeEntry, sysret]) hq
  | lockSleep ha hx hq hu => exact touch_setThread ha.thread ha.used hq.1 hq.2 rfl
  | unlock ha hm hu ho htid =>
    exact Moves.touch ha (moves_unlock ha.2.1) (by simp [clearEntry]) (ha.stackless rfl rfl)
  | wake ha =>
    exact Moves.touch ha (moves_wake ha.2.1) (by simp [sysret, wake_of_running ha.2.1])
      (ha.stackless rfl rfl)
  | create hl ha ht =>
    obtain ⟨hct, hu, _⟩ := hi.freeSlot_fresh ha.2.1 ht
    refine .starts hl (removals_of_acts ha rfl) (by simp [allocates, hl, ha.2.2, ht]) ha.2.1 hu
      ?_ ?_ ?_ (hi.create_starts ha.2.1 ht _ _).other
    · simp [startThread, sysret, hct.symm]
    · simp [startThread, sysret, hct.symm]
    · simp [startThread, sysret, hct]
  | createFail hl ha ht =>
    obtain ⟨hct, hu, _⟩ := hi.freeSlot_fresh ha.2.1 ht
    refine .spoils hl (removals_of_acts ha rfl) (.inr rfl) ha.2.1 hu ?_ ?_ ?_
      (hi.createFail_starts ha.2.1 ht _).other
    · simp [spoilThread, sysret, hct.symm]
    · simp [spoilThread, sysret, hct.symm]
    · simp [spoilThread, sysret, hct]
  | fork hl ha hp =>
    obtain ⟨hct, hu, _⟩ := hi.freeProc_fresh ha.2.1 hp
    refine .starts hl (removals_of_acts ha rfl) (by simp [allocates, hl, ha.2.2, hp]) ha.2.1 hu
      ?_ ?_ ?_ (hi.fork_starts ha.2.1 hp _ _).other
    · simp [startThread, takeProc, sysret, hct.symm]
    · simp [startThread, takeProc, sysret, hct.symm]
    · simp [startThread, takeProc, sysret, hct]
  | forkFail hl hfail ha hp =>
    obtain ⟨hct, hu, _⟩ := hi.freeProc_fresh ha.2.1 hp
    refine .spoils hl (removals_of_acts ha rfl) hfail ha.2.1 hu ?_ ?_ ?_
      (hi.forkFail_starts ha.2.1 hp _).other
    · simp [spoilThread, takeProc, sysret, hct.symm]
    · simp [spoilThread, takeProc, sysret, hct.symm]
    · simp [spoilThread, takeProc, sysret, hct]
  | join ha hx hn hp ht hr => exact Removes.touch ha hi (hi.join_removes ha.2.1 ht) hn hr
  | scan ha hx hr => exact touch_killTurn ha hi hx.allocs hr
  | exited ha =>
    exact ha.touch (ha.stackless rfl rfl) (by rw [safeExit_self ha.2.1]) fun _ => safeExit_woken
  | reap ha hx hp hr =>
    exact Removes.touch ha hi (hi.reap_removes ha.2.1 hp _) (by rcases hx with rfl | rfl <;> rfl) hr

/-! ## Running threads -/

theorem Woken.running {t t' : Thread} (h : Woken t t') :
    t'.state = .TRUNNING ↔ t.state = .TRUNNING := by
  induction h with
  | same => rfl
  | wake w h ih =>
    rw [← ih]
    unfold Thread.wake
    split
    · rename_i hw
      simp [hw.1]
    · rfl

theorem Woken.kstack {t t' : Thread} (h : Woken t t') : t'.kstack = t.kstack := by
  induction h with
  | same => rfl
  | wake w h ih =>
    rw [← ih]
    unfold Thread.wake
    split <;> rfl

/-- No thread starts or stops running in the step of another one. -/
theorem running_of_step (hi : Inv k) (h : k.step l = some k') (hs : l.thread ≠ some s) :
    (k'.thread s).state = .TRUNNING ↔ (k.thread s).state = .TRUNNING := by
  cases touch_of_step hi h with
  | moves hr hp self other => exact (other s hs).running
  | @starts c t a copied hl hr hp hrun unused ht stack self other
  | @spoils c t page copied hl hr hp hrun unused ht stack self other =>
    have hsc : s ≠ c := by
      rintro rfl
      rw [hl] at hs
      exact hs rfl
    by_cases e : s = t
    · simp [e, unused, ht]
    · rw [other s e hsc]
  | @removes c page copied hl hp hrun hc idle self gone other =>
    have hsc : s ≠ c := by
      rintro rfl
      rw [hl] at hs
      exact hs rfl
    by_cases hmem : s ∈ k.removals l
    · simp [(gone s hmem).2, idle s hmem]
    · rw [(other s hmem hsc).2]

end Kernel
end Xv6
