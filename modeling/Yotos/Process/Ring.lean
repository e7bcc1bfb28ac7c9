import Mathlib.Data.List.Infix
import Yotos.Library.Fifo
import Yotos.Process.Keyboard

/-!
# The keyboard buffer as a queue

The handler and `keyboard_getchar` share a ring of 256 cells, which is empty when its two
indices are equal. With at most 255 characters unread it is a queue. The 256th makes the
indices equal again, and with that all of them are gone.
-/

namespace Yotos

namespace Keyboard

open Library

/-- An interrupt of the keyboard, with the answer of `process_is_running`, or a call of
`keyboard_getchar`. -/
inductive Event
  | irq (processIsRunning : Bool) (scancode : UInt8)
  | getchar

/-- The character that an interrupt stores. -/
def stored (k : Keyboard) (running : Bool) (scancode : UInt8) : Option UInt8 :=
  let k' := (keyboardHandler running scancode k).1
  if k'.bufTail = k.bufTail then none else some (k'.keyBuffer k.bufTail)

/-- The result of `keyboard_getchar`, `none` for 0. -/
def received (k : Keyboard) : Option UInt8 :=
  if (keyboardGetchar k).1 = 0 then none else some (keyboardGetchar k).1

def after (k : Keyboard) : Event → Keyboard
  | .irq running scancode => (keyboardHandler running scancode k).1
  | .getchar => (keyboardGetchar k).2

/-- What an event does to the queue of characters. -/
def ops (k : Keyboard) : Event → List (QueueOp UInt8)
  | .irq running scancode => ((stored k running scancode).map .put).toList
  | .getchar => [.get (received k)]

/-- The keyboard after a list of events, and the operations that they were. -/
def afterAll (k : Keyboard) (events : List Event) : Keyboard := events.foldl after k

def opsAll (k : Keyboard) : List Event → List (QueueOp UInt8)
  | [] => []
  | e :: events => ops k e ++ opsAll (after k e) events

/-- From now on `keyboard_getchar` returns the characters of `q`, and then 0. -/
def Drains : Keyboard → List UInt8 → Prop
  | k, [] => received k = none
  | k, c :: q => received k = some c ∧ Drains (keyboardGetchar k).2 q

/-- The events were a queue's, with room for 255 characters, and what is left in the queue
is what will be read. -/
def IsQueue (k : Keyboard) (events : List Event) : Prop :=
  ∃ q, BoundedFifo 255 [] (opsAll k events) q ∧ Drains (afterAll k events) q

/-- The number of unread characters. -/
def unread (k : Keyboard) : ℕ := (k.bufTail - k.bufHead).toNat

/-- The ring holds the characters of `q`. -/
structure Holds (k : Keyboard) (q : List UInt8) : Prop where
  tail : k.bufTail = k.bufHead + UInt8.ofNat q.length
  length_le : q.length ≤ 255
  cell : ∀ i c, q[i]? = some c → k.keyBuffer (k.bufHead + UInt8.ofNat i) = c
  ne_zero : ∀ c ∈ q, c ≠ 0

variable {k : Keyboard} {q : List UInt8} {c : UInt8} {events : List Event}

/-! ## One event -/

/-- The handler stores one character or leaves the ring alone. -/
theorem keyboardHandler_ring (running : Bool) (scancode : UInt8) (k : Keyboard) :
    let k' := (keyboardHandler running scancode k).1
    (k'.keyBuffer = k.keyBuffer ∧ k'.bufHead = k.bufHead ∧ k'.bufTail = k.bufTail) ∨
      ∃ c ≠ 0, k' = push k c := by
  unfold keyboardHandler
  dsimp only
  by_cases hrelease : scancode &&& 0x80 ≠ 0
  · rw [if_pos hrelease]
    left
    split_ifs <;> exact ⟨rfl, rfl, rfl⟩
  · rw [if_neg hrelease]
    split_ifs with hctrl hshift hkill hcaps hchar
    · exact Or.inl ⟨rfl, rfl, rfl⟩
    · exact Or.inl ⟨rfl, rfl, rfl⟩
    · exact Or.inl ⟨rfl, rfl, rfl⟩
    · exact Or.inl ⟨rfl, rfl, rfl⟩
    · exact Or.inr ⟨_, hchar.2, rfl⟩
    · exact Or.inl ⟨rfl, rfl, rfl⟩

theorem bufTail_push_ne (k : Keyboard) (c : UInt8) : (push k c).bufTail ≠ k.bufTail := by
  intro heq
  have hone := congrArg UInt8.toNat heq
  have htail := k.bufTail.toNat_lt
  rw [push, UInt8.toNat_add] at hone
  have hlit : (1 : UInt8).toNat = 1 := rfl
  omega

/-- An interrupt stores nothing, or pushes the character it stores. -/
theorem stored_cases (k : Keyboard) (running : Bool) (scancode : UInt8) :
    (stored k running scancode = none ∧
      (after k (.irq running scancode)).keyBuffer = k.keyBuffer ∧
      (after k (.irq running scancode)).bufHead = k.bufHead ∧
      (after k (.irq running scancode)).bufTail = k.bufTail) ∨
    ∃ c ≠ 0, stored k running scancode = some c ∧ after k (.irq running scancode) = push k c := by
  rcases keyboardHandler_ring running scancode k with ⟨hbuffer, hhead, htail⟩ | ⟨c, hc, hpush⟩
  · exact Or.inl ⟨if_pos htail, hbuffer, hhead, htail⟩
  · refine Or.inr ⟨c, hc, ?_, hpush⟩
    rw [stored, hpush, if_neg (bufTail_push_ne k c), push]
    exact congrArg some (if_pos rfl)

theorem ofNat_add_one (n : ℕ) : UInt8.ofNat (n + 1) = UInt8.ofNat n + 1 := UInt8.ofNat_add n 1

/-- Two offsets below 256 lead to different cells. -/
theorem add_ofNat_inj {a : UInt8} {i j : ℕ} (hi : i < 256) (hj : j < 256) :
    a + UInt8.ofNat i = a + UInt8.ofNat j ↔ i = j := by
  refine ⟨fun h => ?_, fun h => by rw [h]⟩
  have heq := congrArg UInt8.toNat h
  have ha := a.toNat_lt
  rw [UInt8.toNat_add, UInt8.toNat_add, UInt8.toNat_ofNat', UInt8.toNat_ofNat'] at heq
  omega

namespace Holds

theorem unread_eq (h : Holds k q) : unread k = q.length := by
  have hle := h.length_le
  rw [unread, h.tail, UInt8.toNat_sub, UInt8.toNat_add, UInt8.toNat_ofNat']
  have hhead := k.bufHead.toNat_lt
  omega

theorem push (h : Holds k q) (hroom : q.length < 255) (hc : c ≠ 0) :
    Holds (push k c) (q ++ [c]) where
  tail := by
    rw [List.length_append, List.length_singleton, ofNat_add_one]
    change k.bufTail + 1 = k.bufHead + (UInt8.ofNat q.length + 1)
    rw [h.tail, UInt8.add_assoc]
  length_le := by
    rw [List.length_append, List.length_singleton]
    omega
  cell i x hx := by
    change (if k.bufHead + UInt8.ofNat i = k.bufTail then c
      else k.keyBuffer (k.bufHead + UInt8.ofNat i)) = x
    have hlt := (List.getElem?_eq_some_iff.1 hx).1
    rw [List.length_append, List.length_singleton] at hlt
    rw [h.tail]
    by_cases hlast : i = q.length
    · rw [if_pos (congrArg _ (congrArg _ hlast))]
      rw [hlast, List.getElem?_concat_length] at hx
      exact Option.some.inj hx
    · rw [if_neg fun heq => hlast ((add_ofNat_inj (by omega) (by omega)).1 heq)]
      rw [List.getElem?_append_left (by omega)] at hx
      exact h.cell i x hx
  ne_zero x hx := by
    rcases List.mem_append.1 hx with hx | hx
    · exact h.ne_zero x hx
    · rw [List.mem_singleton.1 hx]
      exact hc

theorem of_same_ring (h : Holds k q) {k' : Keyboard} (hbuffer : k'.keyBuffer = k.keyBuffer)
    (hhead : k'.bufHead = k.bufHead) (htail : k'.bufTail = k.bufTail) : Holds k' q where
  tail := by rw [htail, hhead, h.tail]
  length_le := h.length_le
  cell i c hi := by
    rw [hbuffer, hhead]
    exact h.cell i c hi
  ne_zero := h.ne_zero

/-- `keyboard_getchar` on an empty ring. -/
theorem getchar_nil (h : Holds k []) : received k = none ∧ (keyboardGetchar k).2 = k := by
  have hempty : k.bufHead = k.bufTail := by
    rw [h.tail, List.length_nil]
    exact (UInt8.add_zero _).symm
  rw [received, keyboardGetchar, if_pos hempty]
  exact ⟨rfl, rfl⟩

/-- `keyboard_getchar` takes the first character. -/
theorem getchar_cons (h : Holds k (c :: q)) :
    received k = some c ∧ Holds (keyboardGetchar k).2 q := by
  have hle := h.length_le
  rw [List.length_cons] at hle
  have hne : k.bufHead ≠ k.bufTail := by
    rw [h.tail, List.length_cons]
    intro heq
    have hzero : k.bufHead + UInt8.ofNat 0 = k.bufHead + UInt8.ofNat (q.length + 1) :=
      (UInt8.add_zero _).trans heq
    have := (add_ofNat_inj (by omega) (by omega)).1 hzero
    omega
  have hfirst : k.keyBuffer k.bufHead = c := by
    have hcell := h.cell 0 c rfl
    rwa [show UInt8.ofNat 0 = 0 from rfl, UInt8.add_zero] at hcell
  rw [received, keyboardGetchar, if_neg hne]
  dsimp only
  rw [hfirst, if_neg (h.ne_zero c (List.mem_cons_self ..))]
  refine ⟨rfl, ⟨?_, by omega, fun i x hx => ?_, fun x hx => h.ne_zero x (List.mem_cons_of_mem c hx)⟩⟩
  · dsimp only
    rw [h.tail, List.length_cons, ofNat_add_one, UInt8.add_comm (UInt8.ofNat _), UInt8.add_assoc]
  · have hcell := h.cell (i + 1) x hx
    dsimp only
    rwa [ofNat_add_one, UInt8.add_comm (UInt8.ofNat _), ← UInt8.add_assoc] at hcell

theorem drains (h : Holds k q) : Drains k q := by
  induction q generalizing k with
  | nil => exact h.getchar_nil.1
  | cons c q ih =>
      obtain ⟨hreceived, hrest⟩ := h.getchar_cons
      exact ⟨hreceived, ih hrest⟩

end Holds

theorem holds_keyboardFlush (k : Keyboard) : Holds (keyboardFlush k) [] where
  tail := (UInt8.add_zero _).symm
  length_le := Nat.zero_le 255
  cell _ _ hi := by cases hi
  ne_zero _ hc := by cases hc

/-- A character stored while 255 are unread makes the ring look empty. -/
theorem received_push_of_full (h : unread k = 255) (c : UInt8) : received (push k c) = none := by
  have hempty : k.bufHead = k.bufTail + 1 := by
    have heq : k.bufTail - k.bufHead = 255 := UInt8.toNat_inj.1 h
    have hsplit : k.bufTail = k.bufHead + 255 := by
      rw [← heq, UInt8.add_comm, UInt8.sub_add_cancel]
    rw [hsplit, UInt8.add_assoc]
    exact (UInt8.add_zero _).symm
  have hget : keyboardGetchar (push k c) = (0, push k c) := if_pos hempty
  rw [received, hget]
  rfl

/-- A press between the test of `keyboard_getchar` and its read is as one right after the
call. -/
theorem getchar_interrupted (h : k.bufHead ≠ k.bufTail) (c : UInt8) :
    ((push k c).keyBuffer k.bufHead, { push k c with bufHead := k.bufHead + 1 }) =
      ((keyboardGetchar k).1, push (keyboardGetchar k).2 c) := by
  rw [keyboardGetchar, if_neg h]
  exact Prod.ext (if_neg h) rfl

/-! ## Runs -/

theorem afterAll_concat (k : Keyboard) (events : List Event) (e : Event) :
    afterAll k (events ++ [e]) = after (afterAll k events) e := by
  rw [afterAll, List.foldl_append]
  rfl

theorem opsAll_concat (k : Keyboard) (events : List Event) (e : Event) :
    opsAll k (events ++ [e]) = opsAll k events ++ ops (afterAll k events) e := by
  induction events generalizing k with
  | nil => simp [opsAll, afterAll]
  | cons x events ih =>
      rw [List.cons_append, opsAll, opsAll, ih, List.append_assoc]
      rfl

/-- One event, on a ring with room for what it stores. -/
theorem Holds.step (h : Holds k q) (e : Event)
    (hroom : ∀ running scancode, e = .irq running scancode →
      stored k running scancode ≠ none → unread k ≠ 255) :
    ∃ q', BoundedFifo 255 q (ops k e) q' ∧ Holds (after k e) q' := by
  cases e with
  | irq running scancode =>
      rcases stored_cases k running scancode with ⟨hnone, hring⟩ | ⟨c, hc, hsome, hpush⟩
      · refine ⟨q, ?_, h.of_same_ring hring.1 hring.2.1 hring.2.2⟩
        rw [ops, hnone]
        exact .nil q
      · have hne := hroom running scancode rfl (hsome ▸ Option.some_ne_none c)
        have hle := h.length_le
        rw [h.unread_eq] at hne
        refine ⟨q ++ [c], ?_, hpush ▸ h.push (by omega) hc⟩
        rw [ops, hsome]
        exact .put (.nil _)
  | getchar =>
      cases q with
      | nil =>
          obtain ⟨hreceived, hsame⟩ := h.getchar_nil
          refine ⟨[], ?_, ?_⟩
          · rw [ops, hreceived]
            exact .empty (.nil _)
          · rw [after, hsame]
            exact h
      | cons c q =>
          obtain ⟨hreceived, hrest⟩ := h.getchar_cons
          refine ⟨q, ?_, hrest⟩
          rw [ops, hreceived]
          exact .get (.nil _)

/-- From an empty buffer, for all interrupts and calls: the buffer is a bounded queue after
each of them exactly when no character is stored while 255 are unread. -/
theorem isQueue_iff_never_full (k : Keyboard) (events : List Event) :
    (∀ pre, pre <+: events → IsQueue (keyboardFlush k) pre) ↔
      ∀ pre running scancode, pre ++ [.irq running scancode] <+: events →
        stored (afterAll (keyboardFlush k) pre) running scancode ≠ none →
        unread (afterAll (keyboardFlush k) pre) ≠ 255 := by
  constructor
  · intro hqueue pre running scancode hpre hstored hfull
    obtain ⟨q, hops, hdrains⟩ := hqueue _ hpre
    rcases stored_cases (afterAll (keyboardFlush k) pre) running scancode with
      ⟨hnone, -⟩ | ⟨c, -, hsome, hpush⟩
    · exact hstored hnone
    · rw [afterAll_concat, hpush] at hdrains
      rw [opsAll_concat, ops, hsome] at hops
      have hempty := received_push_of_full hfull c
      cases q with
      | nil => exact hops.ne_nil_of_put (by decide) rfl
      | cons x q =>
          rw [Drains, hempty] at hdrains
          exact Option.some_ne_none x hdrains.1.symm
  · intro hroom pre hpre
    have hholds : ∃ q, BoundedFifo 255 [] (opsAll (keyboardFlush k) pre) q ∧
        Holds (afterAll (keyboardFlush k) pre) q := by
      induction pre using List.reverseRecOn with
      | nil => exact ⟨[], .nil _, holds_keyboardFlush k⟩
      | append_singleton pre e ih =>
          obtain ⟨q, hops, hholds⟩ := ih ((List.prefix_append pre [e]).trans hpre)
          obtain ⟨q', hstep, hholds'⟩ := hholds.step e fun running scancode he =>
            hroom pre running scancode (he ▸ hpre)
          refine ⟨q', ?_, ?_⟩
          · rw [opsAll_concat]
            exact hops.append hstep
          · rw [afterAll_concat]
            exact hholds'
    obtain ⟨q, hops, hholds⟩ := hholds
    exact ⟨q, hops, hholds.drains⟩

/-- The characters come back in the order in which they were stored, each at most once. -/
theorem IsQueue.sublist (h : IsQueue k events) :
    (gets (opsAll k events)).Sublist (puts (opsAll k events)) := by
  obtain ⟨q, hops, -⟩ := h
  exact (List.sublist_append_left _ q).trans hops.sublist

/-- 256 presses of the key `a`, and the buffer looks empty. -/
theorem not_isQueue_full :
    received (afterAll (keyboardFlush initial) (List.replicate 256 (.irq false 0x1E))) = none ∧
      ¬ ∀ pre, pre <+: List.replicate 256 (.irq false 0x1E) →
        IsQueue (keyboardFlush initial) pre := by
  refine ⟨by decide +kernel, fun hqueue => ?_⟩
  have hlast : List.replicate 256 (Event.irq false 0x1E) =
      List.replicate 255 (.irq false 0x1E) ++ [.irq false 0x1E] := List.replicate_succ'
  rw [hlast] at hqueue
  exact (isQueue_iff_never_full initial _).1 hqueue _ false 0x1E (List.prefix_refl _)
    (by decide +kernel) (by decide +kernel)

end Keyboard

end Yotos
