import Mathlib.Data.List.Perm.Subperm
import Os1.Lib.Along
import Os1.Lib.LinkedList
import Os1.Sched.RunQueue

/-! Every run queue stays a linked list of exactly the threads that say they are on it. -/
namespace Os1.Sched.RunQueues

/-- `schedule_next` before it chooses: the dead threads are gone and the current one is back. -/
def putBack (s : RunQueues) (c : Nat) (keepCurrent : Bool) : RunQueues :=
  (if c = s.boot then reapDeadThreads s.registry.length s else s).readyCurrent c keepCurrent

variable {s s' s'' : RunQueues} {queue : Nat → List Nat} {c d owner t u : Nat} {l l₁ l₂ : List Nat}
  {previous : Option Nat}

theorem scheduleNext_eq (keepCurrent : Bool) : s.scheduleNext c keepCurrent =
    match ((s.putBack c keepCurrent).dequeueReadyThread c).1.or
        (((s.putBack c keepCurrent).dequeueReadyThread c).2.cpu c).idle with
    | none => (none, ((s.putBack c keepCurrent).dequeueReadyThread c).2)
    | some t => (some t, ((s.putBack c keepCurrent).dequeueReadyThread c).2.setState t .running) :=
  rfl

/-- `queue c` lists the records on the run queue of CPU `c`, first to last. -/
structure Linked (s : RunQueues) (queue : Nat → List Nat) : Prop where
  chain (c : Nat) : Seg (fun t => (s.thread t).next) (s.cpu c).runq.head (queue c) none
  nodup (c : Nat) : (queue c).Nodup
  tail (c : Nat) : (s.cpu c).runq.tail = (queue c).getLast?
  length (c : Nat) : (s.cpu c).runq.length = (queue c).length
  mem_iff (c t : Nat) : t ∈ queue c ↔ (s.thread t).runQueueCpu = some c

/-- What holds of the records themselves. -/
structure Kept (s : RunQueues) : Prop where
  nodup : s.registry.Nodup
  released {t : Nat} (h : t ∉ s.registry) : (s.thread t).state = .free
  unqueued {t : Nat} (h : t ∉ s.registry) : (s.thread t).runQueueCpu = none
  idle_registered {c t : Nat} (h : (s.cpu c).idle = some t) : t ∈ s.registry
  idle_unqueued {c t : Nat} (h : (s.cpu c).idle = some t) : (s.thread t).runQueueCpu = none
  idle_listed {c t : Nat} (h : (s.cpu c).idle = some t) : c ∈ s.cpus

/-- Two states that differ in the run queues only. -/
structure SameRecords (s s' : RunQueues) : Prop where
  boot : s'.boot = s.boot
  others : s'.others = s.others
  registry : s'.registry = s.registry
  current (c : Nat) : (s'.cpu c).current = (s.cpu c).current
  idle (c : Nat) : (s'.cpu c).idle = (s.cpu c).idle
  state (t : Nat) : (s'.thread t).state = (s.thread t).state
  stamp (t : Nat) : (s'.thread t).lastMigrationTick = (s.thread t).lastMigrationTick

theorem SameRecords.refl : SameRecords s s :=
  ⟨rfl, rfl, rfl, fun _ => rfl, fun _ => rfl, fun _ => rfl, fun _ => rfl⟩

theorem SameRecords.trans (h : SameRecords s s') (h' : SameRecords s' s'') : SameRecords s s'' :=
  ⟨h'.boot.trans h.boot, h'.others.trans h.others, h'.registry.trans h.registry,
    fun c => (h'.current c).trans (h.current c), fun c => (h'.idle c).trans (h.idle c),
    fun t => (h'.state t).trans (h.state t), fun t => (h'.stamp t).trans (h.stamp t)⟩

theorem SameRecords.cpus (h : SameRecords s s') : s'.cpus = s.cpus := by
  simp only [RunQueues.cpus, h.boot, h.others]

/-- A record that is put on a queue has to be in use and no idle thread. -/
theorem Kept.congr (h : Kept s) (hregistry : s'.registry = s.registry) (hcpus : s'.cpus = s.cpus)
    (hidle : ∀ c, (s'.cpu c).idle = (s.cpu c).idle)
    (hstate : ∀ t ∉ s.registry, (s'.thread t).state = (s.thread t).state)
    (hqueued : ∀ t, (s'.thread t).runQueueCpu ≠ none → (s.thread t).runQueueCpu = none →
      t ∈ s.registry ∧ ∀ c, (s.cpu c).idle ≠ some t) : Kept s' where
  nodup := hregistry ▸ h.nodup
  released {t} ht := by
    rw [hregistry] at ht
    rw [hstate t ht, h.released ht]
  unqueued {t} ht := by
    rw [hregistry] at ht
    by_contra hne
    exact ht (hqueued t hne (h.unqueued ht)).1
  idle_registered hi := by
    rw [hidle] at hi
    rw [hregistry]
    exact h.idle_registered hi
  idle_unqueued {c t} hi := by
    rw [hidle] at hi
    by_contra hne
    exact (hqueued t hne (h.idle_unqueued hi)).2 c hi
  idle_listed hi := by
    rw [hidle] at hi
    rw [hcpus]
    exact h.idle_listed hi

theorem Kept.of_same (h : Kept s) (hsame : SameRecords s s')
    (hqueued : ∀ t, (s'.thread t).runQueueCpu ≠ none → (s.thread t).runQueueCpu = none →
      t ∈ s.registry ∧ ∀ c, (s.cpu c).idle ≠ some t) : Kept s' :=
  h.congr hsame.registry hsame.cpus hsame.idle (fun t _ => hsame.state t) hqueued

namespace Linked

theorem congr (h : Linked s queue) (hrunq : ∀ c, (s'.cpu c).runq = (s.cpu c).runq)
    (hnext : ∀ t, (s'.thread t).next = (s.thread t).next)
    (howner : ∀ t, (s'.thread t).runQueueCpu = (s.thread t).runQueueCpu) : Linked s' queue where
  chain c := by
    rw [hrunq]
    exact (h.chain c).congr fun t _ => hnext t
  nodup := h.nodup
  tail c := by rw [hrunq, h.tail]
  length c := by rw [hrunq, h.length]
  mem_iff c t := by rw [howner, h.mem_iff]

/-- The fields of a record that is on no queue do not matter. -/
theorem congr_off (h : Linked s queue) (hrunq : ∀ c, (s'.cpu c).runq = (s.cpu c).runq)
    (hbefore : (s.thread t).runQueueCpu = none) (hafter : (s'.thread t).runQueueCpu = none)
    (hnext : ∀ u ≠ t, (s'.thread u).next = (s.thread u).next)
    (howner : ∀ u ≠ t, (s'.thread u).runQueueCpu = (s.thread u).runQueueCpu) :
    Linked s' queue := by
  have hout (c : Nat) : t ∉ queue c := fun hmem => by
    rw [(h.mem_iff c t).mp hmem] at hbefore
    cases hbefore
  constructor
  case chain =>
    intro c
    rw [hrunq]
    exact (h.chain c).congr fun u hu => hnext u fun heq => hout c (heq ▸ hu)
  case nodup => exact h.nodup
  case tail =>
    intro c
    rw [hrunq, h.tail]
  case length =>
    intro c
    rw [hrunq, h.length]
  case mem_iff =>
    intro c u
    by_cases hu : u = t
    · subst hu
      simp [hout, hafter]
    · rw [howner u hu, h.mem_iff]

theorem owner_unique (h : Linked s queue) (hc : t ∈ queue c) (hd : t ∈ queue d) : c = d :=
  Option.some.inj (((h.mem_iff c t).mp hc).symm.trans ((h.mem_iff d t).mp hd))

theorem length_le (h : Linked s queue) (hs : Kept s) (c : Nat) :
    (queue c).length ≤ s.registry.length := by
  refine (List.subperm_of_subset (h.nodup c) fun t ht => ?_).length_le
  by_contra hnot
  have howner := (h.mem_iff c t).mp ht
  rw [hs.unqueued hnot] at howner
  cases howner

end Linked

/-! ## Appending -/

theorem append_next (htail : (s.cpu owner).runq.tail ≠ some t) (u : Nat) :
    ((s.appendReadyThreadLocked owner t).thread u).next =
      if u = t then none else if (s.cpu owner).runq.tail = some u then some t
      else (s.thread u).next := by
  cases hlast : (s.cpu owner).runq.tail with
  | none => by_cases hu : u = t <;>
      simp [appendReadyThreadLocked, setNext, setThread, setQueue, setRunQueueCpu, hlast, hu]
  | some last =>
    have hne : last ≠ t := fun heq => htail (heq ▸ hlast)
    by_cases hu : u = t
    · subst hu
      simp [appendReadyThreadLocked, setNext, setThread, setQueue, setRunQueueCpu, hlast, hne.symm]
    · by_cases hl : u = last
      · simp [appendReadyThreadLocked, setNext, setThread, setQueue, setRunQueueCpu, hlast, hl, hne]
      · simp [appendReadyThreadLocked, setNext, setThread, setQueue, setRunQueueCpu, hlast, hu, hl,
          Ne.symm hl]

theorem append_owner (u : Nat) :
    ((s.appendReadyThreadLocked owner t).thread u).runQueueCpu =
      if u = t then some owner else (s.thread u).runQueueCpu := by
  cases hlast : (s.cpu owner).runq.tail <;>
    simp only [appendReadyThreadLocked, setNext, setThread, setQueue, setRunQueueCpu, hlast] <;>
    grind

theorem append_runq (c : Nat) :
    ((s.appendReadyThreadLocked owner t).cpu c).runq =
      if c = owner then
        { head := if (s.cpu owner).runq.tail = none then some t else (s.cpu owner).runq.head
          tail := some t
          length := (s.cpu owner).runq.length + 1 }
      else (s.cpu c).runq := by
  cases hlast : (s.cpu owner).runq.tail <;>
    simp only [appendReadyThreadLocked, setNext, setThread, setQueue, setRunQueueCpu, hlast] <;>
    grind

theorem append_same : SameRecords s (s.appendReadyThreadLocked owner t) := by
  cases hlast : (s.cpu owner).runq.tail <;> constructor <;>
    simp only [appendReadyThreadLocked, setNext, setThread, setQueue, setRunQueueCpu, hlast] <;>
    grind

theorem Linked.append (h : Linked s queue) (ht : (s.thread t).runQueueCpu = none) :
    Linked (s.appendReadyThreadLocked owner t)
      (fun c => if c = owner then queue owner ++ [t] else queue c) := by
  have hout (c : Nat) : t ∉ queue c := fun hmem => by
    rw [(h.mem_iff c t).mp hmem] at ht
    cases ht
  have htail : (s.cpu owner).runq.tail ≠ some t := fun heq =>
    hout owner (List.mem_of_getLast? (h.tail owner ▸ heq))
  constructor
  case chain =>
    intro c
    rw [append_runq]
    split
    next hc =>
      subst hc
      have hempty : (s.cpu c).runq.tail = none ↔ queue c = [] := by
        rw [h.tail, List.getLast?_eq_none_iff]
      simp only [hempty]
      refine (h.chain c).pushBack (h.nodup c) (fun x hx => ?_) (fun x hx hlast => ?_)
        (by simp [append_next htail])
      · have hx' : x ≠ t := fun heq => hout c (heq ▸ List.mem_of_getLast? hx)
        rw [append_next htail, if_neg hx', if_pos (by rw [h.tail]; exact hx)]
      · have hx' : x ≠ t := fun heq => hout c (heq ▸ hx)
        rw [append_next htail, if_neg hx', if_neg (by rw [h.tail]; exact hlast)]
    next hc =>
      refine (h.chain c).congr fun x hx => ?_
      have hx' : x ≠ t := fun heq => hout c (heq ▸ hx)
      have hlast : (s.cpu owner).runq.tail ≠ some x := fun heq =>
        hc (h.owner_unique hx (List.mem_of_getLast? (h.tail owner ▸ heq)))
      rw [append_next htail, if_neg hx', if_neg hlast]
  case nodup =>
    intro c
    split
    · exact List.Nodup.append (h.nodup owner) (List.nodup_singleton t)
        (List.disjoint_singleton.mpr (hout owner))
    · exact h.nodup c
  case tail =>
    intro c
    rw [append_runq]
    split <;> simp [h.tail]
  case length =>
    intro c
    rw [append_runq]
    split <;> simp [h.length]
  case mem_iff =>
    intro c u
    rw [append_owner]
    by_cases hu : u = t
    · by_cases hc : c = owner
      · simp [hu, hc]
      · simp [hu, hc, hout, Ne.symm hc]
    · by_cases hc : c = owner <;> simp [hu, hc, h.mem_iff]

/-! ## Taking out -/

theorem unlink_next (hprevious : previous ≠ some t) (u : Nat) :
    ((s.unlinkThread owner t previous).thread u).next =
      if u = t then none else if previous = some u then (s.thread t).next
      else (s.thread u).next := by
  cases previous <;>
    simp only [unlinkThread, setNext, setThread, setQueue, setRunQueueCpu] <;> grind

theorem unlink_owner (u : Nat) :
    ((s.unlinkThread owner t previous).thread u).runQueueCpu =
      if u = t then none else (s.thread u).runQueueCpu := by
  cases previous <;>
    simp only [unlinkThread, setNext, setThread, setQueue, setRunQueueCpu] <;> grind

theorem unlink_runq (c : Nat) :
    ((s.unlinkThread owner t previous).cpu c).runq =
      if c = owner then
        { head := if previous = none then (s.thread t).next else (s.cpu owner).runq.head
          tail := if (s.cpu owner).runq.tail = some t then previous else (s.cpu owner).runq.tail
          length := (s.cpu owner).runq.length - 1 }
      else (s.cpu c).runq := by
  cases previous <;>
    simp only [unlinkThread, setNext, setThread, setQueue, setRunQueueCpu] <;> grind

theorem unlink_same : SameRecords s (s.unlinkThread owner t previous) := by
  cases previous <;> constructor <;>
    simp only [unlinkThread, setNext, setThread, setQueue, setRunQueueCpu] <;> grind

/-- The last record of a list from which `t` is taken. -/
theorem getLast?_remove (hl : (l₁ ++ t :: l₂).Nodup) :
    (if (l₁ ++ t :: l₂).getLast? = some t then l₁.getLast? else (l₁ ++ t :: l₂).getLast?) =
      (l₁ ++ l₂).getLast? := by
  rcases List.eq_nil_or_concat l₂ with rfl | ⟨xs, x, rfl⟩
  · simp
  · have hne : x ≠ t := by
      rintro rfl
      simp [List.nodup_append] at hl
    simp [List.getLast?_append, List.getLast?_cons, hne]

theorem Linked.unlink (h : Linked s queue) (hq : queue owner = l₁ ++ t :: l₂) :
    Linked (s.unlinkThread owner t l₁.getLast?)
      (fun c => if c = owner then l₁ ++ l₂ else queue c) := by
  have hnodup : (l₁ ++ t :: l₂).Nodup := hq ▸ h.nodup owner
  have hmem : t ∈ queue owner := by simp [hq]
  have hout : t ∉ l₁ ++ l₂ := (List.nodup_middle.mp hnodup).notMem
  have hprevious : l₁.getLast? ≠ some t := fun heq =>
    hout (List.mem_append_left _ (List.mem_of_getLast? heq))
  constructor
  case chain =>
    intro c
    rw [unlink_runq]
    split
    next hc =>
      subst hc
      have hchain := h.chain c
      rw [hq] at hchain
      simp only [List.getLast?_eq_none_iff]
      refine hchain.remove hnodup (fun p hp => ?_) (fun x hx hlast => ?_)
      · rw [Option.mem_def] at hp
        have hne : p ≠ t := fun heq => hprevious (heq ▸ hp)
        rw [unlink_next hprevious, if_neg hne, if_pos hp]
      · rw [Option.mem_def] at hlast
        have hne : x ≠ t := fun heq => hout (heq ▸ hx)
        rw [unlink_next hprevious, if_neg hne, if_neg hlast]
    next hc =>
      refine (h.chain c).congr fun x hx => ?_
      have hne : x ≠ t := fun heq => hc (h.owner_unique (heq ▸ hx) hmem)
      have hlast : l₁.getLast? ≠ some x := fun heq => by
        have hx' : x ∈ queue owner := by simp [hq, List.mem_of_getLast? heq]
        exact hc (h.owner_unique hx hx')
      rw [unlink_next hprevious, if_neg hne, if_neg hlast]
  case nodup =>
    intro c
    split
    · exact (List.nodup_middle.mp hnodup).of_cons
    · exact h.nodup c
  case tail =>
    intro c
    rw [unlink_runq]
    split
    · rw [h.tail, hq]
      exact getLast?_remove hnodup
    · exact h.tail c
  case length =>
    intro c
    rw [unlink_runq]
    split
    · simp only [h.length, hq, List.length_append, List.length_cons]
      omega
    · exact h.length c
  case mem_iff =>
    intro c u
    rw [unlink_owner]
    by_cases hu : u = t
    · subst hu
      by_cases hc : c = owner
      · simpa [hc] using hout
      · simpa [hc] using fun hmem' => hc (h.owner_unique hmem' hmem)
    · rw [if_neg hu, ← h.mem_iff]
      split
      next hc => simp [hc, hq, hu]
      next => rfl

/-! ## The walks -/

theorem findPrevious_eq {head : Option Nat} {fuel : Nat}
    (hseg : Seg (fun u => (s.thread u).next) head (l₁ ++ t :: l₂) none) (ht : t ∉ l₁)
    (hfuel : l₁.length < fuel) :
    s.findPrevious t fuel previous head = some (l₁.getLast?.or previous) := by
  induction l₁ generalizing head fuel previous with
  | nil =>
    obtain ⟨rfl, -⟩ := hseg
    obtain ⟨fuel, rfl⟩ := Nat.exists_eq_add_of_lt hfuel
    simp [findPrevious]
  | cons x xs ih =>
    obtain ⟨rfl, hseg⟩ := hseg
    obtain ⟨fuel, rfl⟩ : ∃ n, fuel = n + 1 := ⟨fuel - 1, by simp at hfuel; omega⟩
    have hne : x ≠ t := fun heq => ht (heq ▸ List.mem_cons_self ..)
    have hxs : t ∉ xs := fun hmem => ht (List.mem_cons_of_mem x hmem)
    have hlen : xs.length < fuel := by simpa using hfuel
    rw [findPrevious, if_pos hne, ih hseg hxs hlen, List.getLast?_cons]
    cases xs.getLast? <;> rfl

/-- The walk ends with the last migratable record and the one before it. -/
theorem findLastMigratable_eq {fuel : Nat} {cursor : Option Nat} (receiver : Nat)
    (now : BitVec 64) (p : Option Nat) (found : Option (Option Nat × Nat))
    (hseg : Seg (fun u => (s.thread u).next) cursor l none) (hfuel : l.length ≤ fuel) :
    ((∀ u ∈ l, ¬ Kernel.threadIsMigratable (s.thread u).toThread receiver now = true) ∧
        s.findLastMigratable receiver now fuel p cursor found = found) ∨
      ∃ l₁ t l₂, l = l₁ ++ t :: l₂ ∧
        Kernel.threadIsMigratable (s.thread t).toThread receiver now = true ∧
        (∀ u ∈ l₂, ¬ Kernel.threadIsMigratable (s.thread u).toThread receiver now = true) ∧
        s.findLastMigratable receiver now fuel p cursor found =
          some (l₁.getLast?.or p, t) := by
  induction l generalizing cursor fuel p found with
  | nil =>
    obtain rfl : cursor = none := hseg
    refine Or.inl ⟨by simp, ?_⟩
    cases fuel <;> rfl
  | cons x xs ih =>
    obtain ⟨rfl, hseg⟩ := hseg
    obtain ⟨fuel, rfl⟩ : ∃ n, fuel = n + 1 := ⟨fuel - 1, by simp at hfuel; omega⟩
    rw [findLastMigratable]
    obtain ⟨hnone, hfound⟩ | ⟨l₁, t, l₂, rfl, ht, hlast, heq⟩ :=
      ih (some x) _ hseg (by simpa using hfuel)
    · rw [hfound]
      split
      next hx => exact Or.inr ⟨[], x, xs, rfl, hx, hnone, rfl⟩
      next hx => exact Or.inl ⟨List.forall_mem_cons.mpr ⟨hx, hnone⟩, rfl⟩
    · refine Or.inr ⟨x :: l₁, t, l₂, rfl, ht, hlast, ?_⟩
      rw [heq, List.getLast?_cons]
      cases l₁.getLast? <;> rfl

/-- The thread that the balancer detaches from a queue, if any. -/
theorem Linked.detach (h : Linked s queue) {donor : Nat} (receiver : Nat) (now : BitVec 64)
    (hlen : (queue donor).length ≤ s.registry.length) :
    (s.detachLastMigratableThreadLocked donor receiver now).1 = none ∧
        s.migrate donor receiver now = s ∨
      ∃ l₁ t l₂, queue donor = l₁ ++ t :: l₂ ∧
        Kernel.threadIsMigratable (s.thread t).toThread receiver now = true ∧
        (∀ u ∈ l₂, ¬ Kernel.threadIsMigratable (s.thread u).toThread receiver now = true) ∧
        (s.detachLastMigratableThreadLocked donor receiver now).1 = some t ∧
        s.migrate donor receiver now =
          ((s.unlinkThread donor t l₁.getLast?).appendReadyThreadLocked receiver t).setThread t
            fun thread =>
              { thread with schedulerCpu := some receiver, lastMigrationTick := now } := by
  unfold migrate detachLastMigratableThreadLocked walkFuel
  obtain ⟨-, hnone⟩ | ⟨l₁, t, l₂, hq, ht, hlast, hfound⟩ :=
    findLastMigratable_eq receiver now none none (h.chain donor) hlen
  · rw [hnone]
    exact Or.inl ⟨rfl, rfl⟩
  · rw [hfound, Option.or_none]
    exact Or.inr ⟨l₁, t, l₂, hq, ht, hlast, rfl, rfl⟩

/-! ## Queues after a call -/

namespace Linked

theorem clearLink (h : Linked s queue) (ht : (s.thread t).runQueueCpu = none) :
    Linked ((s.setRunQueueCpu t none).setNext t none) queue := by
  refine h.congr_off (fun _ => rfl) ht ?_ (fun u hu => ?_) fun u hu => ?_ <;>
    simp_all [setRunQueueCpu, setNext, setThread]

theorem linkThread {thread : QueueThread} (h : Linked s queue)
    (ht : (s.thread t).runQueueCpu = none) (hthread : thread.runQueueCpu = none)
    (hold : s'.thread = s.thread) (hrunq : ∀ c, (s'.cpu c).runq = (s.cpu c).runq) :
    Linked (s'.linkThread t thread) queue := by
  refine h.congr_off hrunq ht ?_ (fun u hu => ?_) fun u hu => ?_ <;>
    simp_all [RunQueues.linkThread]

/-- A thread that is queued is unlinked where it is. -/
theorem dequeue_cases (h : Linked s queue) (hkept : Kept s) :
    (s.thread t).runQueueCpu = none ∧ s.dequeueThreadIfQueued t = s ∨
      ∃ owner l₁ l₂, queue owner = l₁ ++ t :: l₂ ∧
        s.dequeueThreadIfQueued t = s.unlinkThread owner t l₁.getLast? := by
  unfold dequeueThreadIfQueued
  cases howner : (s.thread t).runQueueCpu with
  | none => exact Or.inl ⟨rfl, rfl⟩
  | some owner =>
    obtain ⟨l₁, l₂, hq⟩ := List.append_of_mem ((h.mem_iff owner t).mpr howner)
    have hnodup := h.nodup owner
    have hlen := h.length_le hkept owner
    have hchain := h.chain owner
    rw [hq] at hnodup hlen hchain
    have ht : t ∉ l₁ := fun hmem =>
      List.disjoint_of_nodup_append hnodup hmem (List.mem_cons_self ..)
    have hfuel : l₁.length < s.registry.length := by
      rw [List.length_append, List.length_cons] at hlen
      omega
    refine Or.inr ⟨owner, l₁, l₂, hq, ?_⟩
    simp only [runQueueRemoveLocked, walkFuel, findPrevious_eq hchain ht hfuel, Option.or_none]

theorem dequeueIfQueued (h : Linked s queue) (hkept : Kept s) :
    Linked (s.dequeueThreadIfQueued t) fun c => (queue c).erase t := by
  obtain ⟨howner, heq⟩ | ⟨owner, l₁, l₂, hq, heq⟩ := h.dequeue_cases hkept (t := t)
  · have hout (c : Nat) : t ∉ queue c := fun hmem => by
      rw [(h.mem_iff c t).mp hmem] at howner
      cases howner
    have hsame : (fun c => (queue c).erase t) = queue :=
      funext fun c => List.erase_of_not_mem (hout c)
    rw [heq, hsame]
    exact h
  · have hsame : (fun c => (queue c).erase t) =
        fun c => if c = owner then l₁ ++ l₂ else queue c := by
      funext c
      split
      next hc =>
        have hnodup := h.nodup owner
        rw [hq] at hnodup
        have ht : t ∉ l₁ := fun hmem =>
          List.disjoint_of_nodup_append hnodup hmem (List.mem_cons_self ..)
        rw [hc, hq, List.erase_append_right _ ht, List.erase_cons_head]
      next hc =>
        have hmem : t ∈ queue owner := by simp [hq]
        exact List.erase_of_not_mem fun hmem' => hc (h.owner_unique hmem' hmem)
    rw [heq, hsame]
    exact h.unlink hq

end Linked

/-! ## The invariant -/

/-- The queues are linked and the records are kept. -/
structure Ordered (s : RunQueues) : Prop where
  linked : ∃ queue, Linked s queue
  kept : Kept s

/-- Nothing has changed that the queues depend on. -/
structure SameLinks (s s' : RunQueues) : Prop where
  runq (c : Nat) : (s'.cpu c).runq = (s.cpu c).runq
  idle (c : Nat) : (s'.cpu c).idle = (s.cpu c).idle
  cpus : s'.cpus = s.cpus
  registry : s'.registry = s.registry
  next (t : Nat) : (s'.thread t).next = (s.thread t).next
  owner (t : Nat) : (s'.thread t).runQueueCpu = (s.thread t).runQueueCpu

theorem SameLinks.setThread {f : QueueThread → QueueThread} (hnext : ∀ x, (f x).next = x.next)
    (howner : ∀ x, (f x).runQueueCpu = x.runQueueCpu) : SameLinks s (s.setThread t f) := by
  refine ⟨fun _ => rfl, fun _ => rfl, rfl, rfl, fun u => ?_, fun u => ?_⟩
  all_goals
    simp only [RunQueues.setThread]
    split <;> simp [hnext, howner]

/-- Making a thread current changes no link but those of taking it off its queue. -/
theorem SameLinks.setCurrentThread
    (ht : ((s.dequeueThreadIfQueued t).thread t).runQueueCpu = none) :
    SameLinks (s.dequeueThreadIfQueued t) (s.setCurrentThread c (some t)) := by
  constructor <;> simp only [RunQueues.setCurrentThread, setSchedulerCpu, setRunQueueCpu, setState,
    RunQueues.setThread, RunQueues.cpus] <;> grind

namespace Ordered

/-- The state of a record that is in use may change, too. -/
theorem congr (h : Ordered s) (hsame : SameLinks s s')
    (hstate : ∀ t ∉ s.registry, (s'.thread t).state = (s.thread t).state) : Ordered s' := by
  obtain ⟨⟨queue, hlinked⟩, hkept⟩ := h
  refine ⟨⟨queue, hlinked.congr hsame.runq hsame.next hsame.owner⟩,
    hkept.congr hsame.registry hsame.cpus hsame.idle hstate fun t ht hnone => ?_⟩
  exact absurd ((hsame.owner t).trans hnone) ht

theorem append (h : Ordered s) (ht : (s.thread t).runQueueCpu = none) (hin : t ∈ s.registry)
    (hidle : ∀ c, (s.cpu c).idle ≠ some t) : Ordered (s.appendReadyThreadLocked owner t) := by
  obtain ⟨⟨queue, hlinked⟩, hkept⟩ := h
  refine ⟨⟨_, hlinked.append ht⟩, hkept.of_same append_same fun u hu hnone => ?_⟩
  rw [append_owner] at hu
  split at hu
  next heq => exact heq ▸ ⟨hin, hidle⟩
  next => exact absurd hnone hu

theorem unlink (h : Linked s queue) (hkept : Kept s) (hq : queue owner = l₁ ++ t :: l₂) :
    Ordered (s.unlinkThread owner t l₁.getLast?) := by
  refine ⟨⟨_, h.unlink hq⟩, hkept.of_same unlink_same fun u hu hnone => ?_⟩
  rw [unlink_owner] at hu
  split at hu
  · exact absurd rfl hu
  · exact absurd hnone hu

/-- A thread that is taken off its queue is on none afterwards; the others stay where they are. -/
theorem dequeueIfQueued (h : Ordered s) : Ordered (s.dequeueThreadIfQueued t) ∧
    SameRecords s (s.dequeueThreadIfQueued t) ∧ ∀ u,
      ((s.dequeueThreadIfQueued t).thread u).runQueueCpu =
        if u = t then none else (s.thread u).runQueueCpu := by
  obtain ⟨⟨queue, hlinked⟩, hkept⟩ := h
  obtain ⟨howner, heq⟩ | ⟨owner, l₁, l₂, hq, heq⟩ := hlinked.dequeue_cases hkept (t := t)
  · rw [heq]
    refine ⟨⟨⟨queue, hlinked⟩, hkept⟩, .refl, fun u => ?_⟩
    by_cases hu : u = t
    · simp [hu, howner]
    · simp [hu]
  · rw [heq]
    exact ⟨unlink hlinked hkept hq, unlink_same, unlink_owner⟩

end Ordered

/-! ## The calls -/

/-- What calls about threads of `P` leave when they make no new records: the stamps are as before,
and no thread has come before one that is not of `P`. -/
structure Touches (P : Nat → Prop) (s s' : RunQueues) : Prop where
  ordered : Ordered s'
  registry : s'.registry ⊆ s.registry
  stamp : ∀ t ∈ s'.registry, (s'.thread t).lastMigrationTick = (s.thread t).lastMigrationTick
  state : ∀ t, ¬ P t → (s'.thread t).state = (s.thread t).state
  place : ∀ queue, Linked s queue → ∃ queue', Linked s' queue' ∧ ∀ t, ¬ P t → ∀ c, t ∈ queue c →
    t ∈ queue' c ∧ (queue' c).idxOf t ≤ (queue c).idxOf t

theorem idxOf_erase_le (hne : u ≠ t) : (l.erase u).idxOf t ≤ l.idxOf t := by
  induction l with
  | nil => simp
  | cons x xs ih =>
    by_cases hx : x = u
    · subst hx
      rw [List.erase_cons_head, List.idxOf_cons_ne _ hne]
      exact Nat.le_succ _
    · rw [List.erase_cons_tail (by simpa using hx)]
      by_cases hxt : x = t
      · simp [hxt]
      · rw [List.idxOf_cons_ne _ hxt, List.idxOf_cons_ne _ hxt]
        exact Nat.succ_le_succ ih

namespace Touches

variable {P Q : Nat → Prop}

theorem refl (h : Ordered s) : Touches P s s :=
  ⟨h, fun _ => id, fun _ _ => rfl, fun _ _ => rfl,
    fun queue hq => ⟨queue, hq, fun _ _ _ hm => ⟨hm, Nat.le_refl _⟩⟩⟩

theorem trans (h : Touches P s s') (h' : Touches P s' s'') : Touches P s s'' := by
  refine ⟨h'.ordered, fun t ht => h.registry (h'.registry ht),
    fun t ht => (h'.stamp t ht).trans (h.stamp t (h'.registry ht)),
    fun t ht => (h'.state t ht).trans (h.state t ht), fun queue hq => ?_⟩
  obtain ⟨queue', hq', hplace⟩ := h.place queue hq
  obtain ⟨queue'', hq'', hplace'⟩ := h'.place queue' hq'
  refine ⟨queue'', hq'', fun t ht c hm => ?_⟩
  obtain ⟨hmem, hle⟩ := hplace t ht c hm
  obtain ⟨hmem', hle'⟩ := hplace' t ht c hmem
  exact ⟨hmem', Nat.le_trans hle' hle⟩

theorem mono (h : Touches P s s') (hPQ : ∀ t, P t → Q t) : Touches Q s s' := by
  refine ⟨h.ordered, h.registry, h.stamp, fun t ht => h.state t fun hP => ht (hPQ t hP),
    fun queue hq => ?_⟩
  obtain ⟨queue', hq', hplace⟩ := h.place queue hq
  exact ⟨queue', hq', fun t ht => hplace t fun hP => ht (hPQ t hP)⟩

/-- The queues stay as they are. -/
theorem of_linked (h : Ordered s) (hlinked : ∀ queue, Linked s queue → Linked s' queue)
    (hkept : Kept s') (hregistry : s'.registry ⊆ s.registry)
    (hstamp : ∀ t ∈ s'.registry,
      (s'.thread t).lastMigrationTick = (s.thread t).lastMigrationTick)
    (hstate : ∀ t, ¬ P t → (s'.thread t).state = (s.thread t).state) : Touches P s s' := by
  obtain ⟨queue, hq⟩ := h.linked
  exact ⟨⟨⟨queue, hlinked queue hq⟩, hkept⟩, hregistry, hstamp, hstate,
    fun queue hq => ⟨queue, hlinked queue hq, fun _ _ _ hm => ⟨hm, Nat.le_refl _⟩⟩⟩

theorem congr (h : Ordered s) (hsame : SameLinks s s')
    (hstamp : ∀ t, (s'.thread t).lastMigrationTick = (s.thread t).lastMigrationTick)
    (hstate : ∀ t, (s'.thread t).state = (s.thread t).state ∨ P t ∧ t ∈ s.registry) :
    Touches P s s' := by
  have hordered : Ordered s' := h.congr hsame fun t ht =>
    (hstate t).resolve_right fun hP => ht hP.2
  exact of_linked h (fun _ hq => hq.congr hsame.runq hsame.next hsame.owner) hordered.kept
    (hsame.registry ▸ List.Subset.refl _) (fun t _ => hstamp t)
    fun t ht => (hstate t).resolve_right fun hP => ht hP.1

theorem setThread (h : Ordered s) {f : QueueThread → QueueThread}
    (hnext : ∀ x, (f x).next = x.next) (howner : ∀ x, (f x).runQueueCpu = x.runQueueCpu)
    (hstamp : ∀ x, (f x).lastMigrationTick = x.lastMigrationTick)
    (hstate : (∀ x, (f x).state = x.state) ∨ P t ∧ t ∈ s.registry) :
    Touches P s (s.setThread t f) := by
  refine congr h (.setThread hnext howner) (fun u => ?_) fun u => ?_
  · simp only [RunQueues.setThread]
    split <;> simp [hstamp]
  · simp only [RunQueues.setThread]
    split
    next heq =>
      subst heq
      exact hstate.imp (fun hsame => hsame _) id
    next => exact Or.inl rfl

theorem setState (h : Ordered s) (hP : P t) (ht : t ∈ s.registry) (state : ThreadState) :
    Touches P s (s.setState t state) :=
  setThread h (fun _ => rfl) (fun _ => rfl) (fun _ => rfl) (Or.inr ⟨hP, ht⟩)

theorem append (h : Ordered s) (ht : (s.thread t).runQueueCpu = none) (hin : t ∈ s.registry)
    (hidle : ∀ c, (s.cpu c).idle ≠ some t) : Touches P s (s.appendReadyThreadLocked owner t) := by
  have hsame : SameRecords s (s.appendReadyThreadLocked owner t) := append_same
  refine ⟨h.append ht hin hidle, hsame.registry ▸ List.Subset.refl _, fun u _ => hsame.stamp u,
    fun u _ => hsame.state u, fun queue hq => ⟨_, hq.append ht, fun u _ c hm => ?_⟩⟩
  split
  next hc =>
    subst hc
    exact ⟨List.mem_append_left _ hm, Nat.le_of_eq (List.idxOf_append_of_mem hm)⟩
  next => exact ⟨hm, Nat.le_refl _⟩

theorem dequeueIfQueued (h : Ordered s) (hP : P t) : Touches P s (s.dequeueThreadIfQueued t) := by
  obtain ⟨hordered, hsame, -⟩ := h.dequeueIfQueued (t := t)
  refine ⟨hordered, hsame.registry ▸ List.Subset.refl _, fun u _ => hsame.stamp u,
    fun u _ => hsame.state u, fun queue hq => ⟨_, hq.dequeueIfQueued h.kept, fun u hu c hm => ?_⟩⟩
  have hne : t ≠ u := fun heq => hu (heq ▸ hP)
  exact ⟨(List.mem_erase_of_ne hne.symm).mpr hm, idxOf_erase_le hne⟩

/-- A record on no queue keeps its `next` field to itself. -/
theorem clearLink (h : Ordered s) (ht : (s.thread t).runQueueCpu = none) :
    Touches P s ((s.setRunQueueCpu t none).setNext t none) := by
  have hsame : SameRecords s ((s.setRunQueueCpu t none).setNext t none) := by
    constructor <;> simp only [setRunQueueCpu, setNext, RunQueues.setThread] <;> grind
  refine of_linked h (fun _ hq => hq.clearLink ht) (h.kept.of_same hsame fun u hu hnone => ?_)
    (fun _ => id) (fun u _ => hsame.stamp u) fun u _ => hsame.state u
  simp only [setRunQueueCpu, setNext, RunQueues.setThread] at hu
  grind

theorem enqueueThreadOnCpu (h : Ordered s) (hin : t ∈ s.registry)
    (hidle : ∀ d, (s.cpu d).idle = some t → c = d) : Touches P s (s.enqueueThreadOnCpu t c) := by
  have hset : Touches P s (s.setSchedulerCpu t c) :=
    setThread h (fun _ => rfl) (fun _ => rfl) (fun _ => rfl) (Or.inl fun _ => rfl)
  unfold RunQueues.enqueueThreadOnCpu
  dsimp only
  split
  next hown => exact hset.trans (clearLink hset.ordered (hset.ordered.kept.idle_unqueued hown))
  next hother =>
    split
    next => exact hset
    next howner =>
      rw [not_not] at howner
      rw [runQueueAppendLocked, if_neg (not_not.mpr howner)]
      exact hset.trans (append hset.ordered howner hin fun d hd => hother (hidle d hd ▸ hd))

theorem selectTargetCpu_snd (target : Option Nat) :
    ∃ last, (s.selectTargetCpu c t target).2 = { s with lastUserThreadCpu := last } := by
  unfold RunQueues.selectTargetCpu
  split
  · exact ⟨_, rfl⟩
  · split
    · exact ⟨_, rfl⟩
    · exact ⟨_, rfl⟩

theorem markThreadReady {target : Option Nat} (h : Ordered s) (hP : P t)
    (hidle : ∀ d, (s.cpu d).idle = some t → (s.selectTargetCpu c t target).1 = d) :
    Touches P s (s.markThreadReady c t target) := by
  unfold RunQueues.markThreadReady
  split
  next => exact refl h
  next hstate =>
    have hin : t ∈ s.registry := by
      by_contra hout
      exact hstate (Or.inr (h.kept.released hout))
    obtain ⟨last, heq⟩ := selectTargetCpu_snd (s := s) (c := c) (t := t) target
    dsimp only
    rw [heq]
    have hlast : Touches P s { s with lastUserThreadCpu := last } :=
      congr h ⟨fun _ => rfl, fun _ => rfl, rfl, rfl, fun _ => rfl, fun _ => rfl⟩ (fun _ => rfl)
        fun _ => Or.inl rfl
    have hready := setState hlast.ordered hP hin .ready
    exact hlast.trans (hready.trans (enqueueThreadOnCpu hready.ordered hin hidle))

theorem setCurrentThread {thread : Option Nat} (h : Ordered s) (hP : ∀ t ∈ thread, P t)
    (hin : ∀ t ∈ thread, t ∈ s.registry) : Touches P s (s.setCurrentThread c thread) := by
  cases thread with
  | none =>
    refine congr h ⟨fun d => ?_, fun d => ?_, rfl, rfl, fun _ => rfl, fun _ => rfl⟩ (fun _ => rfl)
      fun _ => Or.inl rfl
    all_goals
      simp only [RunQueues.setCurrentThread]
      split <;> rfl
  | some t =>
    obtain ⟨hordered, hsame, howner⟩ := h.dequeueIfQueued (t := t)
    refine (dequeueIfQueued h (hP t rfl)).trans (congr hordered
      (.setCurrentThread (by simp [howner])) (fun u => ?_) fun u => ?_)
    · simp only [RunQueues.setCurrentThread, setSchedulerCpu, setRunQueueCpu,
        RunQueues.setState, RunQueues.setThread]
      grind
    · by_cases hu : u = t
      · subst hu
        exact Or.inr ⟨hP u rfl, hsame.registry ▸ hin u rfl⟩
      · simp [RunQueues.setCurrentThread, setSchedulerCpu, setRunQueueCpu, RunQueues.setState,
          RunQueues.setThread, hu]

theorem clearThread (h : Ordered s) (hP : P t) : Touches P s (s.clearThread t) := by
  refine (dequeueIfQueued h hP).trans ?_
  obtain ⟨hordered, -, howner⟩ := h.dequeueIfQueued (t := t)
  unfold RunQueues.clearThread
  generalize s.dequeueThreadIfQueued t = s₁ at *
  have hkept := hordered.kept
  have ht : (s₁.thread t).runQueueCpu = none := by simp [howner]
  -- An idle thread that is left belongs to a CPU of the list, so it is not the cleared one.
  have hidle {c u : Nat} (hi : (if c ∈ s₁.cpus ∧ (s₁.cpu c).idle = some t then
      { s₁.cpu c with idle := none } else s₁.cpu c).idle = some u) :
      (s₁.cpu c).idle = some u ∧ u ≠ t := by
    split at hi
    next => cases hi
    next hne =>
      refine ⟨hi, ?_⟩
      rintro rfl
      exact hne ⟨hkept.idle_listed hi, hi⟩
  have herase {u : Nat} (hu : u ∉ s₁.registry.erase t) : u = t ∨ u ∉ s₁.registry := by
    by_contra hcon
    rw [not_or, not_not] at hcon
    exact hu ((List.mem_erase_of_ne hcon.1).mpr hcon.2)
  refine of_linked hordered (fun queue hq => ?_) ?_ (fun u hu => List.mem_of_mem_erase hu)
    (fun u hu => ?_) fun u hu => ?_
  · refine hq.congr_off (fun c => ?_) ht (by simp) (fun u hu => by simp [hu])
      fun u hu => by simp [hu]
    dsimp only
    split <;> rfl
  · constructor
    case nodup => exact hkept.nodup.erase t
    case released =>
      intro u hu
      obtain rfl | hu := herase hu
      · simp
      · dsimp only
        split
        · rfl
        · exact hkept.released hu
    case unqueued =>
      intro u hu
      obtain rfl | hu := herase hu
      · simp
      · dsimp only
        split
        · rfl
        · exact hkept.unqueued hu
    case idle_registered =>
      intro c u hi
      obtain ⟨hi, hne⟩ := hidle hi
      exact (List.mem_erase_of_ne hne).mpr (hkept.idle_registered hi)
    case idle_unqueued =>
      intro c u hi
      obtain ⟨hi, hne⟩ := hidle hi
      simpa [hne] using hkept.idle_unqueued hi
    case idle_listed =>
      intro c u hi
      exact hkept.idle_listed (hidle hi).1
  · have hne : u ≠ t := (hkept.nodup.mem_erase_iff.mp hu).1
    simp [hne]
  · have hne : u ≠ t := fun heq => hu (heq ▸ hP)
    simp [hne]

/-- The reaper takes dying threads only. -/
theorem reapDeadThreads {fuel : Nat} (h : Ordered s) :
    Touches (fun u => (s.thread u).state = .dying) s (RunQueues.reapDeadThreads fuel s) := by
  induction fuel generalizing s with
  | zero => exact refl h
  | succ fuel ih =>
    unfold RunQueues.reapDeadThreads
    split
    next => exact refl h
    next t hfind =>
      have ht := List.find?_some hfind
      simp only [Bool.and_eq_true, decide_eq_true_eq] at ht
      have hclear : Touches (· = t) s (s.clearThread t) := clearThread h rfl
      refine (hclear.mono ?_).trans ((ih hclear.ordered).mono fun u hu => ?_)
      · rintro _ rfl
        exact ht.1
      · by_cases hut : u = t
        · rw [hut]
          exact ht.1
        · rwa [hclear.state u hut] at hu

end Touches

/-- Clearing records leaves no idle thread and no running thread that was none before. -/
structure Fewer (s s' : RunQueues) : Prop where
  current (c : Nat) : (s'.cpu c).current = (s.cpu c).current
  idle (c t : Nat) : (s'.cpu c).idle = some t → (s.cpu c).idle = some t
  running (t : Nat) : (s'.thread t).state = .running → (s.thread t).state = .running

namespace Fewer

theorem refl : Fewer s s := ⟨fun _ => rfl, fun _ _ => id, fun _ => id⟩

theorem clearThread (h : Ordered s) : Fewer s (s.clearThread t) := by
  obtain ⟨-, hsame, -⟩ := h.dequeueIfQueued (t := t)
  unfold RunQueues.clearThread
  constructor
  case current =>
    intro c
    rw [← hsame.current]
    dsimp only
    split <;> rfl
  case idle =>
    intro c u hi
    rw [← hsame.idle]
    dsimp only at hi
    split at hi
    · cases hi
    · exact hi
  case running =>
    intro u hu
    rw [← hsame.state]
    dsimp only at hu
    split at hu
    · cases hu
    · exact hu

theorem reapDeadThreads {fuel : Nat} (h : Ordered s) :
    Fewer s (RunQueues.reapDeadThreads fuel s) := by
  induction fuel generalizing s with
  | zero => exact refl
  | succ fuel ih =>
    unfold RunQueues.reapDeadThreads
    split
    · exact refl
    next t _ =>
      have hstep : Fewer s (s.clearThread t) := clearThread h
      have hrest := ih (Touches.clearThread (P := (· = t)) h rfl).ordered
      exact ⟨fun c => (hrest.current c).trans (hstep.current c),
        fun c u hu => hstep.idle c u (hrest.idle c u hu),
        fun u hu => hstep.running u (hrest.running u hu)⟩

end Fewer

namespace Ordered

/-- The head of a queue is taken out as `run_queue_remove_locked` would take it out. -/
theorem dequeueReadyThread_eq (h : Linked s queue) (hq : queue c = t :: l) :
    s.dequeueReadyThread c = (some t, s.unlinkThread c t none) := by
  have hchain := h.chain c
  have htail := h.tail c
  have hnodup := h.nodup c
  rw [hq] at hchain htail hnodup
  obtain ⟨hhead, hrest⟩ := hchain
  have hnext : (s.thread t).next = none ↔ (s.cpu c).runq.tail = some t := by
    cases l with
    | nil =>
      have hnone : (s.thread t).next = none := hrest
      simp [hnone, htail]
    | cons u us =>
      have hne : (u :: us).getLast? ≠ some t := fun heq =>
        (List.nodup_cons.mp hnodup).1 (List.mem_of_getLast? heq)
      rw [htail, List.getLast?_cons_cons]
      simp [hrest.1, hne]
  simp only [dequeueReadyThread, hhead, unlinkThread, setNext, setRunQueueCpu, setQueue,
    RunQueues.setThread]
  congr 2
  funext d
  split
  next hd => subst hd; simp [hnext]
  next => rfl

theorem dequeueReadyThread_nil (h : Linked s queue) (hq : queue c = []) :
    s.dequeueReadyThread c = (none, s) := by
  have hchain := h.chain c
  rw [hq] at hchain
  have hhead : (s.cpu c).runq.head = none := hchain
  simp only [dequeueReadyThread, hhead]

end Ordered

namespace Touches

theorem dequeueReadyThread (h : Ordered s) :
    Touches (fun _ => True) s (s.dequeueReadyThread c).2 ∧
      ∀ t ∈ (s.dequeueReadyThread c).1.or ((s.dequeueReadyThread c).2.cpu c).idle,
        t ∈ (s.dequeueReadyThread c).2.registry := by
  obtain ⟨⟨queue, hlinked⟩, hkept⟩ := h
  cases hq : queue c with
  | nil =>
    simp only [Ordered.dequeueReadyThread_nil hlinked hq, Option.none_or]
    exact ⟨refl ⟨⟨queue, hlinked⟩, hkept⟩, fun t ht => hkept.idle_registered ht⟩
  | cons t l =>
    simp only [Ordered.dequeueReadyThread_eq hlinked hq, Option.some_or]
    have hordered : Ordered (s.unlinkThread c t ([] : List Nat).getLast?) :=
      .unlink hlinked hkept hq
    have hsame : SameRecords s (s.unlinkThread c t none) := unlink_same
    refine ⟨⟨hordered, hsame.registry ▸ List.Subset.refl _, fun u _ => hsame.stamp u,
      fun u _ => hsame.state u, fun _ _ => hordered.linked.imp fun _ hq => ⟨hq, ?_⟩⟩,
      fun u hu => ?_⟩
    · exact fun _ hP => absurd trivial hP
    · cases hu
      rw [hsame.registry]
      by_contra hout
      have howner := (hlinked.mem_iff c t).mp (by simp [hq])
      rw [hkept.unqueued hout] at howner
      cases howner

theorem readyCurrent (keep : Bool) (h : Ordered s)
    (hkeep : ∀ t d, keep → (s.cpu c).current = some t → (s.thread t).state = .running →
      (s.cpu d).idle = some t → c = d) :
    Touches (fun u => (s.thread u).state = .running) s (s.readyCurrent c keep) := by
  unfold RunQueues.readyCurrent
  cases hcurrent : (s.cpu c).current with
  | none => exact refl h
  | some t =>
    dsimp only
    split
    next hcond =>
      exact markThreadReady h hcond.2.2 fun d hd => hkeep t d hcond.1 hcurrent hcond.2.2 hd
    next => exact refl h

/-- The reaper and putting back the current thread touch no ready thread. -/
theorem putBack {keep : Bool} (h : Ordered s)
    (hkeep : ∀ t d, keep → (s.cpu c).current = some t → (s.thread t).state = .running →
      (s.cpu d).idle = some t → c = d) :
    Touches (fun u => (s.thread u).state ≠ .ready) s (s.putBack c keep) := by
  have hreaped : Touches (fun u => (s.thread u).state = .dying) s
      (if c = s.boot then RunQueues.reapDeadThreads s.registry.length s else s) ∧
      Fewer s (if c = s.boot then RunQueues.reapDeadThreads s.registry.length s else s) := by
    split
    · exact ⟨reapDeadThreads h, .reapDeadThreads h⟩
    · exact ⟨refl h, .refl⟩
  obtain ⟨htouches, hfewer⟩ := hreaped
  have hback := readyCurrent keep htouches.ordered fun t d hk hcurrent hrunning hd =>
    hkeep t d hk (hfewer.current c ▸ hcurrent) (hfewer.running t hrunning) (hfewer.idle d t hd)
  refine (htouches.mono fun u hu => ?_).trans (hback.mono fun u hu => ?_)
  · simp [hu]
  · simp [hfewer.running u hu]

theorem scheduleNext {keep : Bool} (h : Ordered s)
    (hkeep : ∀ t d, keep → (s.cpu c).current = some t → (s.thread t).state = .running →
      (s.cpu d).idle = some t → c = d) :
    Touches (fun _ => True) s (s.scheduleNext c keep).2 := by
  have hback := (putBack h hkeep).mono (Q := fun _ => True) fun _ _ => trivial
  obtain ⟨hdequeued, hin⟩ := dequeueReadyThread (c := c) hback.ordered
  rw [scheduleNext_eq]
  split
  next => exact hback.trans hdequeued
  next t ht =>
    exact hback.trans (hdequeued.trans (setState hdequeued.ordered trivial (hin t ht) .running))

end Touches

/-! ## New threads -/

/-- The state `s'` has the new record `t`, which is on no queue. -/
structure Adds (s s' : RunQueues) (t : Nat) : Prop where
  ordered : Ordered s'
  linked : ∀ queue, Linked s queue → Linked s' queue
  others : ∀ u ≠ t, s'.thread u = s.thread u

/-- What a call about threads of `P` does: it makes at most one new record first. -/
def Effect (P : Nat → Prop) (s s' : RunQueues) : Prop :=
  ∃ s₁, (s₁ = s ∨ ∃ t ∉ s.registry, Adds s s₁ t) ∧ Touches P s₁ s'

namespace Effect

variable {P : Nat → Prop}

theorem of_touches (h : Touches P s s') : Effect P s s' := ⟨s, Or.inl rfl, h⟩

theorem of_adds {s₁ : RunQueues} (ht : t ∉ s.registry) (h' : Ordered s₁ → Touches P s₁ s')
    (h : Adds s s₁ t) : Effect P s s' :=
  ⟨s₁, Or.inr ⟨t, ht, h⟩, h' h.ordered⟩

theorem ordered (h : Effect P s s') : Ordered s' := by
  obtain ⟨_, -, htouches⟩ := h
  exact htouches.ordered

/-- Stamps of records that stay in use are as before. -/
theorem stamp (h : Effect P s s') (hin : t ∈ s'.registry) (hold : t ∈ s.registry) :
    (s'.thread t).lastMigrationTick = (s.thread t).lastMigrationTick := by
  obtain ⟨s₁, rfl | ⟨u, hu, hadds⟩, htouches⟩ := h
  · exact htouches.stamp t hin
  · rw [htouches.stamp t hin, hadds.others t fun heq => hu (heq ▸ hold)]

end Effect

namespace Ordered
/-- A new record, on no queue; a CPU of the list may have got it as its idle thread before. -/
theorem linkThread {thread : QueueThread} (h : Ordered s) (ht : t ∉ s.registry)
    (hthread : thread.runQueueCpu = none) (hcpus : s'.cpus = s.cpus)
    (hregistry : s'.registry = s.registry) (hold : s'.thread = s.thread)
    (hrunq : ∀ c, (s'.cpu c).runq = (s.cpu c).runq)
    (hidle : ∀ c, (s'.cpu c).idle = (s.cpu c).idle ∨ (s'.cpu c).idle = some t ∧ c ∈ s.cpus) :
    Adds s (s'.linkThread t thread) t := by
  obtain ⟨⟨queue, hlinked⟩, hkept⟩ := h
  have hkeeps {queue : Nat → List Nat} (hlinked : Linked s queue) :
      Linked (s'.linkThread t thread) queue :=
    hlinked.linkThread (hkept.unqueued ht) hthread hold hrunq
  have hne {u : Nat} (hu : u ∉ s.registry ++ [t]) : u ≠ t ∧ u ∉ s.registry :=
    ⟨fun heq => hu (by simp [heq]), fun hmem => hu (List.mem_append_left _ hmem)⟩
  refine ⟨⟨⟨queue, hkeeps hlinked⟩, ?_⟩, fun _ => hkeeps, fun u hu => ?_⟩
  · constructor <;> simp only [RunQueues.linkThread, hold, hregistry]
    case nodup =>
      exact List.Nodup.append hkept.nodup (List.nodup_singleton t)
        (List.disjoint_singleton.mpr ht)
    case released =>
      intro u hu
      rw [if_neg (hne hu).1, hkept.released (hne hu).2]
    case unqueued =>
      intro u hu
      rw [if_neg (hne hu).1, hkept.unqueued (hne hu).2]
    case idle_registered =>
      intro c u hu
      obtain hsame | ⟨hnew, -⟩ := hidle c
      · exact List.mem_append_left _ (hkept.idle_registered (hsame ▸ hu))
      · obtain rfl : t = u := Option.some.inj (hnew.symm.trans hu)
        simp
    case idle_unqueued =>
      intro c u hu
      split
      next => exact hthread
      next hut =>
        obtain hsame | ⟨hnew, -⟩ := hidle c
        · exact hkept.idle_unqueued (hsame ▸ hu)
        · exact absurd (Option.some.inj (hnew.symm.trans hu)).symm hut
    case idle_listed =>
      intro c u hu
      have hlisted : c ∈ s.cpus := by
        obtain hsame | ⟨-, hlisted⟩ := hidle c
        · exact hkept.idle_listed (hsame ▸ hu)
        · exact hlisted
      exact hcpus ▸ hlisted
  · simp only [RunQueues.linkThread, hold, if_neg hu]

theorem nextSchedulableCpuAfter_mem (hc : c ∈ s.cpus) (after : Nat) :
    s.nextSchedulableCpuAfter c after ∈ s.cpus := by
  unfold nextSchedulableCpuAfter
  dsimp only
  generalize hfound : List.find? _ _ = found
  cases found with
  | none => exact hc
  | some d =>
    obtain hmem | hmem := List.mem_append.mp (List.mem_of_find?_eq_some hfound)
    · exact List.mem_of_mem_drop hmem
    · exact List.mem_of_mem_take hmem

theorem kernelThreadOwner_spec (hc : c ∈ s.cpus) : (s.kernelThreadOwner c).1 ∈ s.cpus ∧
    ∃ last, (s.kernelThreadOwner c).2 = { s with lastKernelThreadCpu := last } := by
  unfold kernelThreadOwner
  split
  · exact ⟨hc, _, rfl⟩
  · exact ⟨nextSchedulableCpuAfter_mem hc _, _, rfl⟩

theorem publishIdleThread_idle (d : Nat) : ((s.publishIdleThread owner t).cpu d).idle =
    if d = owner then some t else (s.cpu d).idle := by
  simp only [publishIdleThread]
  split <;> rfl

theorem publishIdleThread_runq (d : Nat) :
    ((s.publishIdleThread owner t).cpu d).runq = (s.cpu d).runq := by
  simp only [publishIdleThread]
  split <;> rfl

/-- A CPU of the list gets the new record as its idle thread. -/
theorem publishIdleThread_adds {thread : QueueThread} (h : Ordered s) (howner : owner ∈ s.cpus)
    (ht : t ∉ s.registry) (hthread : thread.runQueueCpu = none) :
    Adds s ((s.publishIdleThread owner t).linkThread t thread) t := by
  refine h.linkThread ht hthread rfl rfl rfl (fun _ => publishIdleThread_runq _) fun d => ?_
  rw [publishIdleThread_idle]
  split
  next hd => exact Or.inr ⟨rfl, hd ▸ howner⟩
  next => exact Or.inl rfl

theorem createKernelThread (h : Ordered s) (hc : c ∈ s.cpus) (ht : t ∉ s.registry) :
    Effect (· ∉ s.registry) s (s.createKernelThread c t) := by
  obtain ⟨howner, last, heq⟩ := kernelThreadOwner_spec hc
  have hold (d : Nat) : (s.cpu d).idle ≠ some t := fun hi => ht (h.kept.idle_registered hi)
  unfold RunQueues.createKernelThread
  generalize s.kernelThreadOwner c = r at *
  obtain ⟨owner, s₁⟩ := r
  dsimp only at howner heq ⊢
  have hlast : Ordered s₁ :=
    heq ▸ h.congr ⟨fun _ => rfl, fun _ => rfl, rfl, rfl, fun _ => rfl, fun _ => rfl⟩ fun _ _ => rfl
  subst heq
  split
  next hnone =>
    have hadds : Adds _ ((RunQueues.publishIdleThread _ owner t).linkThread t
        { newThread .ready false with schedulerCpu := some owner }) t :=
      hlast.publishIdleThread_adds howner ht rfl
    refine .of_adds ht (fun hs => .markThreadReady hs ht fun d hd => ?_)
      ⟨hadds.ordered, fun _ hq => hadds.linked _ ?_, hadds.others⟩
    · have hd' : (if d = owner then some t else (s.cpu d).idle) = some t :=
        (publishIdleThread_idle d).symm.trans hd
      split at hd'
      next heq => exact heq.symm
      next => exact absurd hd' (hold d)
    · exact hq.congr (fun _ => rfl) (fun _ => rfl) fun _ => rfl
  next =>
    exact .of_adds ht (fun hs => .markThreadReady hs ht fun d hd => absurd hd (hold d))
      (h.linkThread ht rfl rfl rfl rfl (fun _ => rfl) fun _ => Or.inl rfl)

theorem createIdleThreadForCpu (h : Ordered s) (howner : owner ∈ s.cpus) (ht : t ∉ s.registry) :
    Effect (· ∉ s.registry) s (s.createIdleThreadForCpu c owner t) := by
  unfold RunQueues.createIdleThreadForCpu
  split
  next => exact .of_touches (.refl h)
  next => exact .of_adds ht .refl (h.publishIdleThread_adds howner ht rfl)

theorem createUserThread {startReady : Bool} (h : Ordered s) (ht : t ∉ s.registry) :
    Effect (· ∉ s.registry) s (s.createUserThread c t startReady) := by
  have hold (d : Nat) : (s.cpu d).idle ≠ some t := fun hi => ht (h.kept.idle_registered hi)
  have hadds {thread : QueueThread} (hthread : thread.runQueueCpu = none) :
      Adds s ((s.selectUserTargetCpu c).2.linkThread t thread) t :=
    h.linkThread ht hthread rfl rfl rfl (fun _ => rfl) fun _ => Or.inl rfl
  unfold RunQueues.createUserThread
  dsimp only
  split
  · exact .of_adds ht (fun hs => .markThreadReady hs ht fun d hd => absurd hd (hold d)) (hadds rfl)
  · exact .of_adds ht .refl (hadds rfl)

/-! ## Balancing -/

theorem migrate {donor target : Nat} {now : BitVec 64} (h : Ordered s) :
    Ordered (s.migrate donor target now) := by
  obtain ⟨⟨queue, hlinked⟩, hkept⟩ := h
  obtain ⟨-, hsame⟩ | ⟨l₁, t, l₂, hq, -, -, -, heq⟩ :=
    hlinked.detach target now (hlinked.length_le hkept donor)
  · rw [hsame]
    exact ⟨⟨queue, hlinked⟩, hkept⟩
  · rw [heq]
    have howner := (hlinked.mem_iff donor t).mp (by simp [hq])
    have hin : t ∈ s.registry := by
      by_contra hout
      rw [hkept.unqueued hout] at howner
      cases howner
    have hidle (c : Nat) : (s.cpu c).idle ≠ some t := fun hi => by
      rw [hkept.idle_unqueued hi] at howner
      cases howner
    have hunlinked : Ordered (s.unlinkThread donor t l₁.getLast?) := unlink hlinked hkept hq
    have hsame : SameRecords s (s.unlinkThread donor t l₁.getLast?) := unlink_same
    have happended :
        Ordered ((s.unlinkThread donor t l₁.getLast?).appendReadyThreadLocked target t) := by
      refine hunlinked.append ?_ ?_ fun c => ?_
      · rw [unlink_owner, if_pos rfl]
      · rw [hsame.registry]
        exact hin
      · rw [hsame.idle]
        exact hidle c
    refine happended.congr (.setThread (fun _ => rfl) fun _ => rfl) fun u _ => ?_
    simp only [RunQueues.setThread]
    split <;> rfl

theorem schedulerBalanceCpu {target : Nat} {now : BitVec 64} {force : Bool} (h : Ordered s) :
    Ordered (s.schedulerBalanceCpu target now force) := by
  unfold RunQueues.schedulerBalanceCpu
  split
  · exact h
  · dsimp only
    split
    · exact h
    · split
      · exact h.migrate
      · exact h

end Ordered

/-! ## Runs -/

/-- Calls are made for CPUs of the list and `set_current_thread` gets a record that is in use;
`mark_thread_ready` is never asked to put an idle thread on another CPU, also not for the current
thread in `schedule_next`. -/
def Permitted (s : RunQueues) : QueueAction → Prop
  | .createKernelThread c _ => c ∈ s.cpus
  | .createIdleThreadForCpu _ owner _ => owner ∈ s.cpus
  | .markThreadReady c t target =>
    ∀ d, (s.cpu d).idle = some t → (s.selectTargetCpu c t target).1 = d
  | .setCurrentThread _ thread => ∀ t ∈ thread, t ∈ s.registry
  | .scheduleNext c keepCurrent =>
    ∀ t d, keepCurrent → (s.cpu c).current = some t → (s.thread t).state = .running →
      (s.cpu d).idle = some t → c = d
  | _ => True

/-- The threads that a call is about. -/
def Concerns (s : RunQueues) : QueueAction → Nat → Prop
  | .markThreadReady _ t _ => (· = t)
  | .clearThread t => (· = t)
  | .setCurrentThread _ thread => (· ∈ thread)
  | .scheduleNext _ _ => fun _ => True
  | _ => (· ∉ s.registry)

theorem Ordered.effect {action : QueueAction} (h : Ordered s) (hP : s.Permitted action)
    (hbalance : ∀ target now force, action ≠ .balance target now force) :
    Effect (s.Concerns action) s (s.step action) := by
  cases action with
  | createKernelThread c t =>
    simp only [RunQueues.step]
    split
    · exact .of_touches (.refl h)
    · exact h.createKernelThread hP ‹_›
  | createIdleThreadForCpu c owner t =>
    simp only [RunQueues.step]
    split
    · exact .of_touches (.refl h)
    · exact h.createIdleThreadForCpu hP ‹_›
  | createUserThread c t startReady =>
    simp only [RunQueues.step]
    split
    · exact .of_touches (.refl h)
    · exact h.createUserThread ‹_›
  | markThreadReady c t target => exact .of_touches (.markThreadReady h rfl hP)
  | setCurrentThread c thread => exact .of_touches (.setCurrentThread h (fun _ => id) hP)
  | scheduleNext c keepCurrent => exact .of_touches (.scheduleNext h hP)
  | balance target now force => exact absurd rfl (hbalance target now force)
  | clearThread t => exact .of_touches (.clearThread h rfl)

theorem Ordered.step {action : QueueAction} (h : Ordered s) (hP : s.Permitted action) :
    Ordered (s.step action) := by
  by_cases hbalance : ∃ target now force, action = .balance target now force
  · obtain ⟨target, now, force, rfl⟩ := hbalance
    exact h.schedulerBalanceCpu
  · exact (h.effect hP fun target now force heq => hbalance ⟨target, now, force, heq⟩).ordered

/-- As `init_tasks` leaves it: no records, no idle threads and empty queues. -/
def Initial (s : RunQueues) : Prop :=
  s.registry = [] ∧ (∀ t, s.thread t = {}) ∧ ∀ c, (s.cpu c).idle = none ∧ (s.cpu c).runq = {}

theorem Ordered.initial (h : Initial s) : Ordered s := by
  obtain ⟨hregistry, hthread, hcpu⟩ := h
  refine ⟨⟨fun _ => [], ?_⟩, ?_⟩
  · constructor <;> simp [hthread, hcpu, Seg]
  · constructor <;> simp [hregistry, hthread, hcpu]

/-- The run queues with what is on them: `queue c` lists the queue of CPU `c`. -/
structure WellQueued (s : RunQueues) (queue : Nat → List Nat) : Prop where
  linked : Linked s queue
  oneQueue {c d t : Nat} (hc : t ∈ queue c) (hd : t ∈ queue d) : c = d
  idle {c d t : Nat} (h : (s.cpu d).idle = some t) : t ∉ queue c
  inUse {c t : Nat} (h : t ∈ queue c) : t ∈ s.registry

theorem Ordered.wellQueued (h : Ordered s) : ∃ queue, WellQueued s queue := by
  obtain ⟨⟨queue, hlinked⟩, hkept⟩ := h
  refine ⟨queue, hlinked, hlinked.owner_unique, fun hi hmem => ?_, fun {c t} hmem => ?_⟩
  · have howner := (hlinked.mem_iff _ _).mp hmem
    rw [hkept.idle_unqueued hi] at howner
    cases howner
  · by_contra hout
    have howner := (hlinked.mem_iff c t).mp hmem
    rw [hkept.unqueued hout] at howner
    cases howner

/-- In every state of every run the queues are lists of exactly the threads that say so, without
idle threads and released records. -/
theorem run_wellQueued (s : RunQueues) (actions : List QueueAction) (h : Initial s)
    (hP : Along step Permitted s actions) (n : Nat) :
    ∃ queue, WellQueued (run s (actions.take n)) queue :=
  (Along.invariant Ordered (fun _ _ hs hp => hs.step hp) (.initial h) hP n).wellQueued

def twoCpus : RunQueues where
  boot := 0
  others := [1]
  cpu c := { booted := c = 1 }
  thread _ := {}
  registry := []
  lastKernelThreadCpu := 0
  lastUserThreadCpu := 0

/-- Two user threads are queued, taken up by the two CPUs, and one of them is cleared. -/
theorem run_wellQueued_two_cpus : ∃ queue, WellQueued (run twoCpus
    [.createKernelThread 0 1, .createIdleThreadForCpu 0 1 2, .createUserThread 0 3 true,
      .createUserThread 0 4 true, .setCurrentThread 0 (some 4), .scheduleNext 1 false,
      .balance 0 0#64 true, .clearThread 3]) queue := by
  refine run_wellQueued twoCpus
    [.createKernelThread 0 1, .createIdleThreadForCpu 0 1 2, .createUserThread 0 3 true,
      .createUserThread 0 4 true, .setCurrentThread 0 (some 4), .scheduleNext 1 false,
      .balance 0 0#64 true, .clearThread 3]
    ⟨rfl, fun _ => rfl, fun _ => ⟨rfl, rfl⟩⟩
    ⟨?_, ?_, trivial, trivial, ?_, by simp [Permitted], trivial, trivial, trivial⟩ 8
  · exact List.mem_cons_self ..
  · exact List.mem_cons_of_mem _ (List.mem_singleton_self 1)
  · rintro t ⟨⟩
    exact List.mem_append_right _ (List.mem_singleton_self 4)

end Os1.Sched.RunQueues
