import Mathlib.Data.List.TakeWhile
import Xv6.Links.Counts

/-! Path names (`fs.c`): what `skipelem` makes of a string, and what `namex` makes of its
elements. A string is the list of its characters before the NUL. -/

namespace Xv6.Links
namespace Paths

open Calls Function

def DIRSIZ : Nat := 14

def NUL : Char := '\x00'

/-! ## Elements -/

/-- What `memmove` and the store of the terminator leave in `name`, for the element `s`. -/
def copyName (name s : List Char) : List Char :=
  if DIRSIZ ≤ s.length then s.take DIRSIZ ++ name.drop DIRSIZ
  else s ++ NUL :: name.drop (s.length + 1)

/-- The name that a buffer holds. -/
def text (name : List Char) : Name := (name.take DIRSIZ).takeWhile (· ≠ NUL)

/-- The rest of the path, and the contents of `name`. -/
def skipelem (path name : List Char) : Option (List Char × List Char) :=
  match path.dropWhile (· = '/') with
  | [] => none
  | c :: s => some (((c :: s).dropWhile (· ≠ '/')).dropWhile (· = '/'),
      copyName name ((c :: s).takeWhile (· ≠ '/')))

theorem text_copyName (name : List Char) {s : List Char} (h : NUL ∉ s) :
    text (copyName name s) = s.take DIRSIZ := by
  have hs : ∀ c ∈ s.take DIRSIZ, decide (c ≠ NUL) = true := fun c hc =>
    decide_eq_true fun e => h (e ▸ List.mem_of_mem_take hc)
  unfold text copyName
  split
  · rename_i hl
    rw [List.take_append_of_le_length (by simp [hl]), List.take_take, Nat.min_self]
    exact List.takeWhile_eq_self_iff.2 hs
  · rename_i hl
    have hle : s.length ≤ DIRSIZ := by omega
    rw [List.take_of_length_le hle] at hs ⊢
    obtain ⟨k, hk⟩ : ∃ k, DIRSIZ - s.length = k + 1 := ⟨DIRSIZ - s.length - 1, by omega⟩
    rw [List.take_append, List.take_of_length_le hle, hk, List.take_succ_cons,
      List.takeWhile_append_of_pos hs]
    simp

theorem dropWhile_head {p : Char → Bool} {l d : List Char} {e : Char}
    (h : l.dropWhile p = e :: d) : p e = false := by
  simpa only [h, List.head?_cons] using List.head?_dropWhile_not p l

/-- The maximal runs of characters other than slashes. -/
def runs (path : List Char) : List (List Char) := (path.splitOn '/').filter (· ≠ [])

theorem runs_slash (path : List Char) : runs ('/' :: path) = runs path := by
  simp [runs, List.splitOn_cons_eq_if_modifyHead]

theorem runs_dropWhile (path : List Char) : runs (path.dropWhile (· = '/')) = runs path := by
  induction path with
  | nil => rfl
  | cons c path ih =>
    by_cases hc : c = '/'
    · rw [hc, runs_slash, ← ih]
      rfl
    · rw [List.dropWhile_cons_of_neg (by simpa using hc)]

theorem runs_element {c : Char} (hc : c ≠ '/') (s : List Char) :
    runs (c :: s) = (c :: s).takeWhile (· ≠ '/') :: runs ((c :: s).dropWhile (· ≠ '/')) := by
  have hne : (c :: s).takeWhile (· ≠ '/') ≠ [] := by simp [hc]
  have hslash : '/' ∉ (c :: s).takeWhile (· ≠ '/') := fun h => by
    simpa using List.all_eq_true.1 List.all_takeWhile _ h
  conv_lhs => rw [← List.takeWhile_append_dropWhile (p := (· ≠ '/')) (l := c :: s)]
  cases hd : (c :: s).dropWhile (· ≠ '/') with
  | nil =>
    rw [List.append_nil, runs, List.splitOn_eq_singleton hslash,
      List.filter_cons_of_pos (by simpa using hne)]
    rfl
  | cons e d =>
    have he : e = '/' := by simpa using dropWhile_head hd
    rw [he, runs_slash, runs, List.splitOn_append_cons_self_of_not_mem hslash,
      List.filter_cons_of_pos (by simpa using hne)]
    rfl

theorem skipelem_none {path name : List Char} (h : skipelem path name = none) : runs path = [] := by
  unfold skipelem at h
  split at h
  · rename_i hs
    rw [← runs_dropWhile, hs]
    rfl
  · cases h

/-- An element is the next run, and the rest of the path has the other runs. -/
theorem skipelem_some {path name rest name' : List Char}
    (h : skipelem path name = some (rest, name')) :
    ∃ s, runs path = s :: runs rest ∧ name' = copyName name s ∧ s ⊆ path ∧ rest ⊆ path ∧
      rest.length < path.length ∧ (rest = [] ↔ runs rest = []) := by
  unfold skipelem at h
  split at h
  · cases h
  · rename_i c s hs
    have hc : c ≠ '/' := of_decide_eq_false (dropWhile_head hs)
    have hsub : (c :: s).Sublist path := hs ▸ List.dropWhile_sublist _
    have hrest : (((c :: s).dropWhile (· ≠ '/')).dropWhile (· = '/')).Sublist s :=
      (List.dropWhile_sublist _).trans
        (by rw [List.dropWhile_cons_of_pos (by simpa using hc)]; exact List.dropWhile_sublist _)
    cases h
    refine ⟨(c :: s).takeWhile (· ≠ '/'), ?_, rfl, ?_, ?_, ?_, ?_⟩
    · rw [← runs_dropWhile, hs, runs_element hc, runs_dropWhile]
    · exact ((List.takeWhile_sublist _).trans hsub).subset
    · exact ((hrest.trans (List.sublist_cons_self c s)).trans hsub).subset
    · exact Nat.lt_of_le_of_lt hrest.length_le hsub.length_le
    · cases hd : ((c :: s).dropWhile (· ≠ '/')).dropWhile (· = '/') with
      | nil => simp [runs]
      | cons e d =>
        simp [runs_element (of_decide_eq_false (dropWhile_head hd))]

/-- The elements that the calls of `skipelem` put into `name`. -/
def elements (path name : List Char) : List Name :=
  match _h : skipelem path name with
  | none => []
  | some (rest, name') => text name' :: elements rest name'
termination_by path.length
decreasing_by
  obtain ⟨_, -, -, -, -, hl, -⟩ := skipelem_some _h
  exact hl

theorem elements_eq (path name : List Char) (h : NUL ∉ path) :
    elements path name = (runs path).map (List.take DIRSIZ) := by
  fun_induction elements path name with
  | case1 path name hs => rw [skipelem_none hs, List.map_nil]
  | case2 path name rest name' hs ih =>
    obtain ⟨s, hr, rfl, hsub, hrest, -⟩ := skipelem_some hs
    rw [hr, List.map_cons, ih fun hm => h (hrest hm), text_copyName _ fun hm => h (hsub hm)]

/-! ## Walks on strings -/

/-- The loop of `namex`. -/
def namexLoop {n : Nat} {π : Type} (parent : Bool) (path name : List Char) (ip : Inum n) :
    Sys n π (Option (Inum n × List Char)) :=
  match _h : skipelem path name with
  | none =>
    if parent then do
      iput ip
      pure none
    else pure (some (ip, name))
  | some (rest, name') => do
    ilock ip
    let x ← inode ip
    if x.node.type ≠ .dir then do
      iunlockput ip
      pure none
    else if parent ∧ rest = [] then do
      iunlock ip
      pure (some (ip, name'))
    else
      match ← dirlookup ip (text name') with
      | none => do
        iunlockput ip
        pure none
      | some (next, _) => do
        iunlockput ip
        namexLoop parent rest name' next
termination_by path.length
decreasing_by
  obtain ⟨_, -, -, -, -, hl, -⟩ := skipelem_some _h
  exact hl

variable {n : Nat} {π : Type}

def namex (p : π) (parent : Bool) (path name : List Char) :
    Sys n π (Option (Inum n × List Char)) := do
  if path.head? = some '/' then do
    iget ROOTINO
    namexLoop parent path name ROOTINO
  else do
    let d ← cwd p
    idup d
    namexLoop parent path name d

/-- The buffer is a local variable, so `name` may be anything. -/
def namei (p : π) (path name : List Char) : Sys n π (Option (Inum n)) :=
  Option.map Prod.fst <$> namex p false path name

def nameiparent (p : π) (path name : List Char) : Sys n π (Option (Inum n × List Char)) :=
  namex p true path name

/-- The name that a walk puts into its buffer for its caller. -/
def found (parent : Bool) (r : Inum n × List Char) : Inum n × Name :=
  (r.1, if parent then text r.2 else [])

/-- The walk on a string is the walk on its elements. -/
theorem namexLoop_elements (parent : Bool) (path name : List Char) (ip : Inum n) (h : NUL ∉ path) :
    Option.map (found parent) <$> (namexLoop parent path name ip : Sys n π _) =
      Links.namexLoop parent (elements path name) ip := by
  fun_induction elements path name generalizing ip with
  | case1 path name hs =>
    unfold namexLoop
    split
    · cases parent <;> simp [Links.namexLoop, found]
    · simp_all
  | case2 path name rest name' hs ih =>
    obtain ⟨s, -, -, -, hrest, -, hnil⟩ := skipelem_some hs
    have h' : NUL ∉ rest := fun hm => h (hrest hm)
    rw [← List.map_eq_nil_iff (f := List.take DIRSIZ), ← elements_eq rest name' h'] at hnil
    unfold namexLoop
    split
    · simp_all
    · rename_i rest' name'' hs'
      cases hs'.symm.trans hs
      simp only [Links.namexLoop, map_bind, apply_ite (Option.map (found parent) <$> ·), map_pure,
        Option.map_none, Option.map_some, hnil]
      refine bind_congr fun _ => bind_congr fun x => ?_
      congr 1
      split
      · rename_i hp
        simp [found, hp.1]
      · refine bind_congr fun r => ?_
        cases r with
        | none => simp
        | some r => simp [ih _ h']

/-! ## What a walk finds -/

theorem findEnt_eq_none {es : List (Dirent n)} {name : Name} :
    findEnt es name = none ↔ ∀ e ∈ es, e.inum = 0 ∨ e.name ≠ name := by
  constructor
  · intro h e he
    exact or_iff_not_imp_left.2 (findEnt_none h he)
  · intro h
    rw [Option.eq_none_iff_forall_ne_some]
    rintro ⟨i, k⟩ hq
    obtain ⟨e, hk, rfl, h0, hn⟩ := findEnt_some hq
    rcases h e (List.mem_of_getElem? hk) with h1 | h1
    · exact h0 h1
    · exact h1 hn

theorem resolve_eq_none (N : Inum n → Node n) (i : Inum n) (path : List Name) :
    resolve N i path = none ↔ ∃ before name after d, path = before ++ name :: after ∧
      resolve N i before = some d ∧
      ((N d).type ≠ .dir ∨ ∀ e ∈ (N d).ents, e.inum = 0 ∨ e.name ≠ name) := by
  have hl (d : Inum n) (name : Name) : lookup N d name = none ↔
      (N d).type ≠ .dir ∨ ∀ e ∈ (N d).ents, e.inum = 0 ∨ e.name ≠ name := by
    rw [← findEnt_eq_none, lookup]
    split <;> simp_all
  simp only [← hl]
  constructor
  · intro h
    induction path generalizing i with
    | nil => cases h
    | cons name path ih =>
      cases hd : lookup N i name with
      | none => exact ⟨[], name, path, i, rfl, rfl, hd⟩
      | some d =>
        rw [resolve, List.foldlM_cons, hd] at h
        obtain ⟨before, name', after, d', rfl, hb, hn⟩ := ih d h
        refine ⟨name :: before, name', after, d', rfl, ?_, hn⟩
        rw [resolve, List.foldlM_cons, hd]
        exact hb
  · rintro ⟨before, name, after, d, rfl, hb, hn⟩
    rw [resolve] at hb
    rw [resolve, List.foldlM_append, hb]
    simp [hn]

variable {N : Inum n → Node n} {path : List Name}

theorem resolveParent_eq_some {i d : Inum n}
    {name : Name} : resolveParent N i path = some (d, name) ↔
      path.getLast? = some name ∧ resolve N i path.dropLast = some d ∧ (N d).type = .dir := by
  simp only [resolveParent, Option.bind_eq_bind, Option.bind_eq_some_iff,
    Option.ite_none_right_eq_some, Option.some.injEq, Prod.mk.injEq]
  constructor
  · rintro ⟨_, hl, _, hr, hd, rfl, rfl⟩
    exact ⟨hl, hr, hd⟩
  · rintro ⟨hl, hr, hd⟩
    exact ⟨name, hl, d, hr, hd, rfl, rfl⟩

theorem resolveParent_eq_none {i : Inum n} : resolveParent N i path = none ↔
      path = [] ∨ ∀ d, resolve N i path.dropLast = some d → (N d).type ≠ .dir := by
  rw [resolveParent]
  cases hl : path.getLast? with
  | none => simp_all
  | some name =>
    have hne : path ≠ [] := fun h => by simp [h] at hl
    cases hr : resolve N i path.dropLast <;> simp [hne]

/-- An inode that a walk can come to: it is allocated, and it has a link or is in use. -/
def Live (s : State n π) (i : Inum n) : Prop :=
  (s.nodes i).type ≠ .free ∧ ((s.nodes i).nlink ≠ 0 ∨ 0 < (s.inode i).ref)

/-- Where a path starts. -/
def start (s : State n π) (p : π) (path : List Char) : Inum n :=
  if path.head? = some '/' then ROOTINO else (s.cwd p).getD ROOTINO

/-- A directory tree between two calls, seen from the inode `i`. -/
structure Sound (s : State n π) (i : Inum n) : Prop where
  live : ∀ path d, resolve s.nodes i path = some d → Live s d
  unlocked : ∀ j, (s.inode j).locked = false

/-- The state `t` of a walk that was started in `s` and has taken the references `r` and the
lock `l`. -/
structure Walks (s : State n π) (r : Inum n → Nat) (l : Option (Inum n)) (t : State n π) :
    Prop where
  same : Same s t
  ref : ∀ j, (t.inode j).ref = (s.inode j).ref + r j
  locked : ∀ j, (t.inode j).locked = decide (l = some j)

variable {s t : State n π} {r r' : Inum n → Nat} {l l' : Option (Inum n)} {i : Inum n}
  {E : Stop → Prop}

theorem Walks.replace {x : Inode n} (h : Walks s r l t) (hn : x.node = (t.inode i).node)
    (hr : x.ref = (s.inode i).ref + r' i) (hrn : ∀ j ≠ i, r' j = r j)
    (hl : x.locked = decide (l' = some i)) (hln : ∀ j ≠ i, (l' = some j ↔ l = some j)) :
    Walks s r' l' (t.setInode i x) where
  same := ⟨by rw [nodes_setInode_update, hn]; exact (update_eq_self i _).trans h.same.nodes,
    h.same.cwd, h.same.file, h.same.ofile⟩
  ref := (forall_update_iff _ fun j (y : Inode n) => y.ref = (s.inode j).ref + r' j).2
    ⟨hr, fun j hj => by rw [h.ref, hrn j hj]⟩
  locked := (forall_update_iff _ fun j (y : Inode n) => y.locked = decide (l' = some j)).2
    ⟨hl, fun j hj => by rw [h.locked, decide_eq_decide, hln j hj]⟩

theorem Walks.lock (h : Walks s r none t) (hr : 0 < r i) (hi : (s.nodes i).type ≠ .free) :
    Ends (ilock i) t E fun _ u => Walks s r (some i) u := by
  have href := h.ref i
  have hn : (t.inode i).node.type ≠ .free := by
    rw [← h.same.nodes] at hi
    exact hi
  simp only [ilock, acquiresleep, inode, setInode, ends_bind, ends_get, ends_ite, ends_modify,
    h.locked, inode_setInode, setInode_setInode, ends_pure, ends_throw, reduceCtorEq, decide_false]
  refine ⟨fun h0 => by omega, fun _ => ⟨False.elim, fun _ =>
    ⟨fun _ => ?_, fun _ => ⟨fun hf => absurd hf hn, fun _ => ?_⟩⟩⟩⟩
  all_goals
    exact h.replace rfl (h.ref i) (fun _ _ => rfl) (decide_eq_true rfl).symm fun j hj => by
      simp [hj.symm]

theorem Walks.unlock (h : Walks s r (some i) t) (hr : 0 < r i) :
    Ends (iunlock i) t E fun _ u => Walks s r none u := by
  have href := h.ref i
  simp only [iunlock, releasesleep, inode, setInode, ends_bind, ends_get, ends_ite, ends_modify,
    h.locked, ends_pure, ends_throw, decide_true, true_and]
  refine ⟨fun _ => ?_, fun hf => absurd (by omega) hf⟩
  exact h.replace rfl href (fun _ _ => rfl) (decide_eq_false (by simp)).symm fun j hj => by
    simp [hj.symm]

/-- Another reference remains, or a link, so that nothing is freed. -/
theorem Walks.put (h : Walks s (r + Pi.single i 1) none t)
    (hi : (s.nodes i).nlink ≠ 0 ∨ 0 < (s.inode i).ref) :
    Ends (iput i) t E fun _ u => Walks s r none u := by
  have href := h.ref i
  have hn : (t.inode i).node.nlink = (s.nodes i).nlink := by
    rw [← h.same.nodes]
    rfl
  rw [Pi.add_apply, Pi.single_eq_same] at href
  simp only [iput, acquiresleep, releasesleep, inode, setInode, ends_bind, ends_get,
    ends_pure, ends_ite, ends_throw, ends_modify, inode_setInode, setInode_setInode, h.locked,
    reduceCtorEq, decide_false]
  refine ⟨False.elim, fun _ => ⟨fun hfree => ?_, fun _ => ?_⟩⟩
  · rw [hn] at hfree
    omega
  · refine h.replace rfl ?_ (fun j hj => ?_) (decide_eq_false (by simp)).symm fun j hj => Iff.rfl
    · show (t.inode i).ref - 1 = _
      omega
    · rw [Pi.add_apply, Pi.single_eq_of_ne hj, Nat.add_zero]

theorem Walks.unlockPut (h : Walks s (r + Pi.single i 1) (some i) t)
    (hi : (s.nodes i).nlink ≠ 0 ∨ 0 < (s.inode i).ref) :
    Ends (iunlockput i) t E fun _ u => Walks s r none u :=
  (h.unlock (by simp)).bind fun _ _ hu => hu.put hi

/-- A reference takes one entry of the cache at most. -/
theorem Walks.cached_le (h : Walks s (Pi.single i 1) l t) : t.cached ≤ s.cached + 1 := by
  have ht := List.countP_erase (fun j => decide (0 < (t.inode j).ref)) (List.finRange (n + 2)) i
  have hs := List.countP_erase (fun j => decide (0 < (s.inode j).ref)) (List.finRange (n + 2)) i
  have hle : ((List.finRange (n + 2)).erase i).countP (fun j => decide (0 < (t.inode j).ref)) ≤
      ((List.finRange (n + 2)).erase i).countP fun j => decide (0 < (s.inode j).ref) := by
    refine List.countP_mono_left fun j hj => ?_
    rw [h.ref, Pi.single_eq_of_ne ((List.nodup_finRange _).mem_erase_iff.1 hj).1]
    exact id
  unfold State.cached
  split at ht <;> split at hs <;> omega

theorem Walks.take (h : Walks s r l t) (hE : NINODE ≤ t.cached → E .noInodes) :
    Ends (iget i) t E fun _ u => Walks s (r + Pi.single i 1) l u := by
  have href := h.ref i
  simp only [iget, inode, setInode, ends_bind, ends_get, ends_pure, ends_ite, ends_throw,
    ends_modify]
  refine ⟨fun _ => ?_, fun _ => ⟨hE, fun _ => ?_⟩⟩
  all_goals
    refine h.replace rfl ?_ (fun j hj => ?_) (h.locked i) fun j hj => Iff.rfl
    · simp
      omega
    · rw [Pi.add_apply, Pi.single_eq_of_ne hj, Nat.add_zero]

/-- The reference that a call returns. -/
def returned : Option (Inum n) → Inum n → Nat
  | some i => Pi.single i 1
  | none => 0

theorem namexLoop_walks (parent : Bool) (path : List Name)
    (hE : NINODE ≤ s.cached + 1 → E .noInodes)
    (hlive : ∀ path d, resolve s.nodes i path = some d → Live s d)
    (h : Walks s (Pi.single i 1) none t) : Ends (Links.namexLoop parent path i) t E fun o u =>
      o = target s.nodes parent i path ∧ Walks s (returned (o.map Prod.fst)) none u := by
  have hi := hlive [] i rfl
  induction path generalizing i t with
  | nil =>
    cases parent
    · exact ⟨rfl, h⟩
    · rw [← zero_add (Pi.single i 1)] at h
      exact (h.put hi.2).bind fun _ u hu => ⟨rfl, hu⟩
  | cons name path ih =>
    refine (h.lock (by simp) hi.1).bind fun _ u hu => ends_inode.2 ?_
    have hnode : (u.inode i).node = s.nodes i := congrFun hu.same.nodes i
    have hu' : Walks s (0 + Pi.single i 1) (some i) u := by rwa [zero_add]
    rw [target_cons]
    simp only [hnode]
    split
    · exact (hu'.unlockPut hi.2).bind fun _ v hv => ⟨rfl, hv⟩
    split
    · exact (hu.unlock (by simp)).bind fun _ v hv => ⟨rfl, hv⟩
    rename_i hd _
    rw [not_not] at hd
    have hlook : Ends (dirlookup i name) u E fun q v =>
        q = findEnt (s.nodes i).ents name ∧
          Walks s (returned (q.map Prod.fst) + Pi.single i 1) (some i) v := by
      rw [dirlookup, ends_inode, hnode, if_pos hd]
      cases hf : findEnt (s.nodes i).ents name with
      | none => exact ⟨rfl, hu'⟩
      | some q =>
        have htake := hu.take (i := q.1) fun hc => hE (hc.trans hu.cached_le)
        refine htake.bind fun _ v hv => ⟨rfl, ?_⟩
        rw [add_comm] at hv
        exact hv
    refine hlook.bind ?_
    rintro q v ⟨hq, hv⟩
    rw [← hq]
    cases q with
    | none => exact (hv.unlockPut hi.2).bind fun _ w hw => ⟨rfl, hw⟩
    | some q =>
      have hnext : ∀ path d, resolve s.nodes q.1 path = some d → Live s d := fun path d hr =>
        hlive (name :: path) d (by simpa [resolve, lookup, hd, ← hq] using hr)
      exact (hv.unlockPut hi.2).bind fun _ w hw => ih hnext hw (hnext [] q.1 rfl)

theorem namex_walks (p : π) (parent : Bool) {path : List Char} (name : List Char)
    (hp : NUL ∉ path) (h : Sound s (start s p path)) (hE : NINODE ≤ s.cached + 1 → E .noInodes) :
    Ends (namex p parent path name) s E fun o t =>
      o.map (found parent) = target s.nodes parent (start s p path) (elements path name) ∧
      Walks s (returned (o.map Prod.fst)) none t := by
  have h0 : Walks s 0 none s := ⟨.refl s, fun _ => rfl, fun i => by simp [h.unlocked i]⟩
  have hloop {t : State n π} (ht : Walks s (0 + Pi.single (start s p path) 1) none t) :
      Ends (namexLoop parent path name (start s p path)) t E fun o u =>
        o.map (found parent) = target s.nodes parent (start s p path) (elements path name) ∧
        Walks s (returned (o.map Prod.fst)) none u := by
    rw [zero_add] at ht
    have hl := namexLoop_walks parent (elements path name) hE h.live ht
    rw [← namexLoop_elements parent path name _ hp, ends_map] at hl
    refine hl.post fun o u hu => ⟨hu.1, ?_⟩
    cases o <;> exact hu.2
  unfold namex
  unfold start at hloop ⊢
  split
  · rename_i hc
    simp only [if_pos hc] at hloop
    exact (h0.take fun hc => hE (by omega)).bind fun _ t ht => hloop ht
  · rename_i hc
    simp only [if_neg hc] at hloop
    simp only [Links.cwd, idup, inode, setInode, ends_bind, ends_get, ends_pure, ends_modify]
    refine hloop (h0.replace rfl ?_ (fun j hj => ?_) (h0.locked _) fun _ _ => Iff.rfl)
    · simp
    · simp [hj]

/-- Paths name what their elements lead to, and every reference but the returned one is given
back. With less than two free entries in the inode cache a walk can end in a panic. -/
theorem paths_resolve (p : π) (path name : List Char) (hp : NUL ∉ path)
    (h : Sound s (start s p path)) :
    elements path name = ((path.splitOn '/').filter (· ≠ [])).map (List.take DIRSIZ) ∧
    Ends (namei p path name) s (fun e => e = .noInodes ∧ NINODE < s.cached + 2) (fun r t =>
      r = resolve s.nodes (start s p path) (elements path name) ∧
      (r = none ↔ ∃ before elem after d, elements path name = before ++ elem :: after ∧
        resolve s.nodes (start s p path) before = some d ∧ ((s.nodes d).type ≠ .dir ∨
          ∀ e ∈ (s.nodes d).ents, e.inum = 0 ∨ e.name ≠ elem)) ∧ Walks s (returned r) none t) ∧
    Ends (nameiparent p path name) s (fun e => e = .noInodes ∧ NINODE < s.cached + 2) (fun r t =>
      (∀ d buffer, r = some (d, buffer) →
        resolve s.nodes (start s p path) (elements path name).dropLast = some d ∧
        (elements path name).getLast? = some (text buffer)) ∧ (r = none ↔ elements path name = [] ∨
        ∀ d, resolve s.nodes (start s p path) (elements path name).dropLast = some d →
          (s.nodes d).type ≠ .dir) ∧ Walks s (returned (r.map Prod.fst)) none t) := by
  have hE : NINODE ≤ s.cached + 1 → Stop.noInodes = .noInodes ∧ NINODE < s.cached + 2 :=
    fun hc => ⟨rfl, by omega⟩
  refine ⟨elements_eq path name hp, ends_map.2 ?_, ?_⟩
  · refine (namex_walks p false name hp h hE).post ?_
    rintro r t ⟨hr, ht⟩
    rw [target, if_neg Bool.false_ne_true] at hr
    have hres : r.map Prod.fst = resolve s.nodes (start s p path) (elements path name) := by
      have := congrArg (Option.map Prod.fst) hr
      simpa [Option.map_map, comp_def, found] using this
    exact ⟨hres, hres ▸ resolve_eq_none .., ht⟩
  · refine (namex_walks p true name hp h hE).post ?_
    rintro r t ⟨hr, ht⟩
    rw [target, if_pos rfl] at hr
    refine ⟨?_, ?_, ht⟩
    · rintro d buffer rfl
      obtain ⟨hl, hd, -⟩ := resolveParent_eq_some.1 hr.symm
      exact ⟨hd, hl⟩
    · rw [← resolveParent_eq_none, ← hr, Option.map_eq_none_iff]

/-- In the states that the calls reach, an allocated inode is live. -/
theorem live_of_inv [Fintype π] {B : Prop} {cw : π → Option (Inum n)}
    (h : Inv True B cw s 0 0 0) (hi : (s.nodes i).type ≠ .free) {d : Inum n}
    (hd : resolve s.nodes i path = some d) : Live s d := by
  induction path generalizing i with
  | nil =>
    cases hd
    exact ⟨hi, or_iff_not_imp_left.2 fun h0 => (h.used _ hi (not_not.1 h0)).1⟩
  | cons name path ih =>
    rw [resolve, List.foldlM_cons, Option.bind_eq_bind, Option.bind_eq_some_iff] at hd
    obtain ⟨j, hj, hd⟩ := hd
    rw [lookup, Option.ite_none_right_eq_some, Option.map_eq_some_iff] at hj
    obtain ⟨hdir, q, hq, rfl⟩ := hj
    obtain ⟨e, hk, he, h0, -⟩ := findEnt_some hq
    exact ih (he ▸ h.named_allocated trivial hdir (List.mem_of_getElem? hk) (he ▸ h0)) hd

/-- A path to a missing name and a path to the root, on a new file system. -/
theorem paths_resolve_root :
    Ends (namei () ['/', '/', 'a', '/'] []) (boot rootOnly () : State 1 Unit)
      (fun e => e = .noInodes ∧ NINODE < 3) (fun r t => r = none ∧ (t.inode 1).ref = 1) ∧
    Ends (namei () ['/', '.', '/', '.', '.'] []) (boot rootOnly () : State 1 Unit)
      (fun e => e = .noInodes ∧ NINODE < 3) (fun r t => r = some 1 ∧ (t.inode 1).ref = 2) := by
  have hsound (path : List Char) : Sound (boot rootOnly () : State 1 Unit)
      (start (boot rootOnly ()) () path) := by
    have hroot : start (boot rootOnly () : State 1 Unit) () path = 1 := by
      unfold start
      split <;> rfl
    exact ⟨fun _ _ => live_of_inv (image_rootOnly.boot ()) (by rw [hroot]; decide), fun _ => rfl⟩
  constructor
  · refine (paths_resolve () ['/', '/', 'a', '/'] [] (by decide) (hsound _)).2.1.imp
      (fun _ he => he) ?_
    rintro r t ⟨hr, -, ht⟩
    obtain rfl : r = none := hr.trans (by decide +kernel)
    exact ⟨rfl, ht.ref 1⟩
  · refine (paths_resolve () ['/', '.', '/', '.', '.'] [] (by decide) (hsound _)).2.1.imp
      (fun _ he => he) ?_
    rintro r t ⟨hr, -, ht⟩
    obtain rfl : r = some 1 := hr.trans (by decide +kernel)
    exact ⟨rfl, ht.ref 1⟩

end Paths
end Xv6.Links
