import Mathlib.Data.List.Infix
import Mathlib.Data.List.Nodup
import Mathlib.Data.List.Perm.Subperm

/-!
# The host-name exchange of `main`

With `--host-names`, every rank `i ≥ 1` sends its host name to rank `0` by
`comm.send(name, 0, i)` in round `i` of a loop all ranks run; rank `0` prints
a header and its own name, then in round `i` receives from rank `i` with tag
`i` and prints that name, and prints a closing line after the loop. Sends are
buffered here: a rank posts its message and goes on, so the ranks' steps
interleave in any order, and rank `0` takes whichever message in flight
matches source and tag, as `comm.recv<std::string>(i, i)` does. A synchronous
send only removes interleavings. Whatever the interleaving, rank `0` prints the
names in rank order, each next to its own rank; it never waits for a message
that cannot come; and every step brings the exchange closer to its end.
-/

namespace Ramble.HostNames

/-- What rank `0` prints for rank `i`: `i << ": " << name << std::endl`. -/
def hostLine (i : ℕ) (name : String) : String := toString i ++ ": " ++ name

/-- The lines rank `0` has printed once the exchange is over. -/
def expectedOut (names : ℕ → String) (size : ℕ) : List String :=
  ["", "*** Host names ***"] ++ (List.range size).map (fun i => hostLine i (names i)) ++ ["******"]

/-- The exchange between two steps. -/
structure Exchange where
  /-- The ranks `i ≥ 1` past their `comm.send(name, 0, i)`. -/
  sent : List ℕ
  /-- The messages in flight: source, tag and the name sent. -/
  inFlight : List (ℕ × ℕ × String)
  /-- Rank `0`'s loop counter `i`. -/
  next : ℕ
  /-- Rank `0` has printed the closing line. -/
  closed : Bool
  /-- The lines rank `0` has printed. -/
  out : List String

namespace Exchange

/-- Rank `i` has posted its message `(i, i, name)`. -/
def send (s : Exchange) (i : ℕ) (name : String) : Exchange :=
  { s with sent := i :: s.sent, inFlight := s.inFlight ++ [(i, i, name)] }

/-- Rank `0` has taken the message `(next, next, name)` and printed its line. -/
def recv (s : Exchange) (name : String) : Exchange :=
  { s with
    inFlight := s.inFlight.erase (s.next, s.next, name)
    next := s.next + 1
    out := s.out ++ [hostLine s.next name] }

/-- Rank `0` has printed the closing line. -/
def close (s : Exchange) : Exchange := { s with closed := true, out := s.out ++ ["******"] }

end Exchange

variable (names : ℕ → String) (size : ℕ)

/-- Rank `0` has printed `std::endl`, the header and its own name; no rank has sent. -/
def init : Exchange := ⟨[], [], 1, false, ["", "*** Host names ***", hostLine 0 (names 0)]⟩

/-- One step of one rank. -/
inductive Step : Exchange → Exchange → Prop
  /-- Rank `i ≥ 1`, in round `i`: `comm.send(name, 0, i)`. -/
  | send {s : Exchange} {i : ℕ} : 1 ≤ i → i < size → i ∉ s.sent → Step s (s.send i (names i))
  /-- Rank `0`, in round `next`: `comm.recv<std::string>(next, next)` takes a
  message from rank `next` with tag `next`, and rank `0` prints it. -/
  | recv {s : Exchange} {name : String} : s.next < size → (s.next, s.next, name) ∈ s.inFlight →
      Step s (s.recv name)
  /-- Rank `0`, after the loop: `"******"`. -/
  | close {s : Exchange} : size ≤ s.next → s.closed = false → Step s s.close

/-- The states some interleaving of steps reaches from the start. -/
inductive Reachable : Exchange → Prop
  | init : Reachable (init names)
  | step {s s' : Exchange} : Reachable s → Step names size s s' → Reachable s'

/-- Steps left before the exchange is over, at most: sends, receives and the closing line. -/
def remaining (s : Exchange) : ℕ :=
  (size - s.sent.length) + (size - s.next) + if s.closed then 0 else 1

/-- What every reachable state keeps. -/
structure Inv (s : Exchange) : Prop where
  /-- Rank `0`'s loop runs from `1`... -/
  next_pos : 1 ≤ s.next
  /-- ...up to `comm.size()`. -/
  next_le : s.next ≤ size
  /-- Only ranks `1, ..., size - 1` send, each once. -/
  sent_range : ∀ i ∈ s.sent, 1 ≤ i ∧ i < size
  sent_nodup : s.sent.Nodup
  /-- A message in flight comes from rank `i`, with tag `i` and rank `i`'s name... -/
  inFlight_eq : ∀ m ∈ s.inFlight, m = (m.1, m.1, names m.1)
  /-- ...and rank `i` has sent it. -/
  inFlight_sent : ∀ m ∈ s.inFlight, m.1 ∈ s.sent
  /-- A rank whose round has passed has sent. -/
  sent_below : ∀ i, 1 ≤ i → i < s.next → i ∈ s.sent
  /-- A rank whose round has not come yet still has its message in flight. -/
  waiting : ∀ i ∈ s.sent, s.next ≤ i → (i, i, names i) ∈ s.inFlight
  /-- The closing line comes after the loop. -/
  closed_le : s.closed = true → size ≤ s.next
  /-- Rank `0` has printed the header, the names of ranks before `next`, and
  the closing line once it is closed. -/
  out_eq : s.out = ["", "*** Host names ***"] ++ (List.range s.next).map (fun i => hostLine i (names i)) ++
    if s.closed then ["******"] else []

variable {names size}

theorem Inv.init (hsize : 0 < size) : Inv names size (init names) where
  next_pos := le_rfl
  next_le := hsize
  sent_range _ h := absurd h (List.not_mem_nil _)
  sent_nodup := .nil
  inFlight_eq _ h := absurd h (List.not_mem_nil _)
  inFlight_sent _ h := absurd h (List.not_mem_nil _)
  sent_below _ h1 (h2 : _ < 1) := absurd h2 (by omega)
  waiting _ h := absurd h (List.not_mem_nil _)
  closed_le h := absurd h Bool.false_ne_true
  out_eq := rfl

/-- Every step keeps the invariant. -/
theorem Inv.step {s s' : Exchange} (h : Inv names size s) (hs : Step names size s s') : Inv names size s' := by
  cases hs with
  | @send i h1 h2 hi =>
    dsimp only [Exchange.send]
    exact { h with
      sent_range := List.forall_mem_cons.2 ⟨⟨h1, h2⟩, h.sent_range⟩
      sent_nodup := h.sent_nodup.cons hi
      inFlight_eq := fun m hm => (List.mem_append.1 hm).elim (h.inFlight_eq m) fun hm => by
        rw [List.mem_singleton.1 hm]
      inFlight_sent := fun m hm => (List.mem_append.1 hm).elim (fun hm => List.mem_cons_of_mem _ (h.inFlight_sent m hm))
        fun hm => by rw [List.mem_singleton.1 hm]; exact List.mem_cons_self _ _
      sent_below := fun j h1 h2 => List.mem_cons_of_mem _ (h.sent_below j h1 h2)
      waiting := fun j hj hn => (List.mem_cons.1 hj).elim (fun hji => by simp [hji])
        fun hj => List.mem_append_left _ (h.waiting j hj hn) }
  | @recv name hn hm =>
    have hname : name = names s.next := by simpa using h.inFlight_eq _ hm
    have hopen : s.closed = false := Bool.eq_false_iff.2 fun hc => absurd (h.closed_le hc) (by omega)
    dsimp only [Exchange.recv]
    exact { h with
      next_pos := Nat.le_succ_of_le h.next_pos
      next_le := hn
      inFlight_eq := fun m hm' => h.inFlight_eq m (List.mem_of_mem_erase hm')
      inFlight_sent := fun m hm' => h.inFlight_sent m (List.mem_of_mem_erase hm')
      sent_below := fun j h1 (h2 : j < s.next + 1) => (Nat.lt_succ_iff_lt_or_eq.1 h2).elim
        (h.sent_below j h1) fun hj => hj ▸ h.inFlight_sent _ hm
      waiting := fun j hj (hj' : s.next + 1 ≤ j) =>
        (List.mem_erase_of_ne (by simp only [ne_eq, Prod.mk.injEq]; omega)).2 (h.waiting j hj (by omega))
      closed_le := fun hc => absurd hc (by simp [hopen])
      out_eq := by simp [h.out_eq, hopen, hname, List.range_succ] }
  | close hn hc =>
    dsimp only [Exchange.close]
    exact { h with
      closed_le := fun _ => hn
      out_eq := by simp [h.out_eq, hc] }

theorem Inv.of_reachable (hsize : 0 < size) {s : Exchange} (h : Reachable names size s) : Inv names size s := by
  induction h with
  | init => exact Inv.init hsize
  | step _ hs ih => exact ih.step hs

/-- Before the closing line some rank can always move: rank `0` waits only for
rank `next`, which either has not sent yet or has its message in flight. -/
theorem Inv.progress {s : Exchange} (h : Inv names size s) (hc : s.closed = false) :
    ∃ s', Step names size s s' := by
  by_cases hn : s.next < size
  · by_cases hsent : s.next ∈ s.sent
    · exact ⟨_, .recv hn (h.waiting _ hsent le_rfl)⟩
    · exact ⟨_, .send h.next_pos hn hsent⟩
  · exact ⟨_, .close (not_lt.1 hn) hc⟩

/-- After the closing line nothing moves: every rank has sent, and rank `0` is past its loop. -/
theorem Inv.not_step_of_closed {s s' : Exchange} (h : Inv names size s) (hc : s.closed = true)
    (hs : Step names size s s') : False := by
  have hn := h.closed_le hc
  cases hs with
  | send h1 h2 hi => exact hi (h.sent_below _ h1 (by omega))
  | recv hn' _ => omega
  | close _ hc' => exact Bool.false_ne_true (hc' ▸ hc)

/-- Once closed, rank `0` has printed every name and the closing line. -/
theorem Inv.out_of_closed {s : Exchange} (h : Inv names size s) (hc : s.closed = true) :
    s.out = expectedOut names size := by
  rw [h.out_eq, hc, le_antisymm h.next_le (h.closed_le hc)]
  rfl

/-- Before, it has printed the header and the names of ranks `0, ..., next - 1`, in rank order. -/
theorem Inv.out_prefix {s : Exchange} (h : Inv names size s) : s.out <+: expectedOut names size := by
  cases hc : s.closed with
  | true => rw [h.out_of_closed hc]
  | false =>
    obtain ⟨k, hk⟩ := Nat.exists_eq_add_of_le h.next_le
    rw [h.out_eq, hc, expectedOut, hk, List.range_add, List.map_append]
    simp only [Bool.false_eq_true, reduceIte, List.append_nil, List.append_assoc]
    exact (List.prefix_append_right_inj _).2 (List.prefix_append _ _)

/-- Every step brings the exchange closer to its end. -/
theorem Inv.remaining_lt {s s' : Exchange} (h : Inv names size s) (hs : Step names size s s') :
    remaining size s' < remaining size s := by
  cases hs with
  | @send i h1 h2 hi =>
    have hlen : s.sent.length < size := by
      have hsub := (List.subperm_of_subset h.sent_nodup fun j hj =>
        List.mem_range'_1.2 (by have := h.sent_range j hj; omega : 1 ≤ j ∧ j < 1 + (size - 1))).length_le
      rw [List.length_range'] at hsub
      omega
    simp only [remaining, Exchange.send, List.length_cons]
    omega
  | recv hn _ =>
    simp only [remaining, Exchange.recv]
    omega
  | close _ hc =>
    simp only [remaining, Exchange.close, hc, Bool.false_eq_true, reduceIte]
    omega

/-- In every interleaving of the ranks' steps, rank `0` prints the header and
then the names in rank order, each next to its own rank, and the closing line
last; it can stop only once it has printed them all; and every step brings the
exchange closer to its end, so every interleaving ends. -/
theorem reachable_prints_in_rank_order (hsize : 0 < size) {s : Exchange} (hs : Reachable names size s) :
    s.out <+: expectedOut names size ∧ (s.closed = true → s.out = expectedOut names size) ∧
      ((∃ s', Step names size s s') ↔ s.closed = false) ∧
      ∀ s', Step names size s s' → remaining size s' < remaining size s := by
  have h := Inv.of_reachable hsize hs
  refine ⟨h.out_prefix, h.out_of_closed, ⟨fun ⟨_, hs'⟩ => ?_, h.progress⟩, fun _ => h.remaining_lt⟩
  exact Bool.eq_false_iff.2 fun hc => h.not_step_of_closed hc hs'

/-- The host names of a two-rank run. -/
def twoHosts (i : ℕ) : String := "node" ++ toString i

/-- Two ranks once rank `1` has sent its name and rank `0` has received it and
printed the closing line. -/
def twoHostsClosed : Exchange := (((init twoHosts).send 1 (twoHosts 1)).recv (twoHosts 1)).close

theorem reachable_prints_in_rank_order_two :
    0 < 2 ∧ Reachable twoHosts 2 twoHostsClosed ∧ twoHostsClosed.closed = true ∧
      (twoHostsClosed.out <+: expectedOut twoHosts 2 ∧
      (twoHostsClosed.closed = true → twoHostsClosed.out = expectedOut twoHosts 2) ∧
      ((∃ s', Step twoHosts 2 twoHostsClosed s') ↔ twoHostsClosed.closed = false) ∧
      ∀ s', Step twoHosts 2 twoHostsClosed s' → remaining 2 s' < remaining 2 twoHostsClosed) := by
  have hsend : Step twoHosts 2 (init twoHosts) ((init twoHosts).send 1 (twoHosts 1)) :=
    .send le_rfl (by decide) (List.not_mem_nil 1)
  have hrecv : Step twoHosts 2 ((init twoHosts).send 1 (twoHosts 1))
      (((init twoHosts).send 1 (twoHosts 1)).recv (twoHosts 1)) :=
    .recv (by decide) (List.mem_append_right [] (List.mem_singleton_self (1, 1, twoHosts 1)))
  have hclose : Step twoHosts 2 (((init twoHosts).send 1 (twoHosts 1)).recv (twoHosts 1)) twoHostsClosed :=
    .close le_rfl rfl
  have hreach : Reachable twoHosts 2 twoHostsClosed := .step (.step (.step .init hsend) hrecv) hclose
  exact ⟨Nat.zero_lt_two, hreach, rfl, reachable_prints_in_rank_order Nat.zero_lt_two hreach⟩

end Ramble.HostNames
