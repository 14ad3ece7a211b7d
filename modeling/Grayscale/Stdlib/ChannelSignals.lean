import Mathlib.Data.Fintype.Card
import Grayscale.Stdlib.Channels

/-!
# Signals of channels

The conditions of `stdlib/channels.c`: no thread goes on waiting for what the channel has, unless
other threads have been woken to take it.
-/

namespace Grayscale.Channels

open Finset Function

inductive Condition
  | notFull
  | notEmpty
  deriving DecidableEq

/-- The condition that the loop of a call waits for. -/
def Call.condition : Call → Option Condition
  | .send _ => some .notFull
  | .receive => some .notEmpty
  | _ => none

/-- The argument of `pthread_cond_signal` in a body. -/
def Outcome.signalled : Outcome → Option Condition
  | .sent | .triedSend true => some .notEmpty
  | .received _ | .triedReceive _ true => some .notFull
  | _ => none

/-- How many calls need not wait for the condition. -/
def GrayChannelInternal.available (channel : GrayChannelInternal) : Condition → ℤ
  | .notFull => channel.capacity - channel.count
  | .notEmpty => channel.count

def Thread.WaitsFor (c : Condition) (thread : Thread) : Prop :=
  ∃ call : Call, thread = .waiting call ∧ call.condition = some c

def Thread.runsFor (c : Condition) : Thread → Bool
  | .running call => call.condition == some c
  | _ => false

variable {ι : Type*} [DecidableEq ι] [Fintype ι]

/-- The waits that a body ends: a signal ends one, at least, of those for its condition, and the
broadcasts of `close` end all. -/
structure EndsWaits (outcome : Outcome) (before after : ι → Thread) : Prop where
  eq_or : ∀ i, after i = before i ∨ ∃ call, before i = .waiting call ∧ after i = .running call
  signal : ∀ c i, outcome.signalled = some c → (before i).WaitsFor c →
    ∃ j, (before j).WaitsFor c ∧ (after j).runsFor c
  broadcast : outcome = .closed → ∀ i c, ¬ (after i).WaitsFor c

/-- A step of one thread, where a body ends waits. A wait may end at any other time too. -/
inductive System.SignalStep : System ι → System ι → Prop
  | idle {s t : System ι} (h : s.Step none t) : SignalStep s t
  | act {s : System ι} {i : ι} {call : Call} (h : s.threads i = .running call)
    {threads : ι → Thread}
    (hends : EndsWaits (call.body s.channel).2 (s.act i call).threads threads) :
    SignalStep s { s.act i call with threads }

/-- The threads that run, or have been woken, in a call that needs the condition. -/
def runners (c : Condition) (threads : ι → Thread) : Finset ι :=
  univ.filter fun i => (threads i).runsFor c

/-- No wakeup is lost: where a thread waits for a condition, the channel is open, and as many
threads as it can serve run. -/
def System.Served (s : System ι) : Prop := ∀ c i, (s.threads i).WaitsFor c →
  s.channel.closed = false ∧ s.channel.available c ≤ (runners c s.threads).card

variable {c : Condition} {s t : System ι}

/-- A body takes what its call needs and signals what it gives. It waits for what there is not, and
leaves a channel open or closed unless it closes it. -/
theorem Call.body_available (call : Call) (channel : GrayChannelInternal) (c : Condition) :
    ((call.body channel).1.closed = false → (call.body channel).1.available c ≤ 0 ∨
      (call.body channel).1.available c + (if call.condition = some c then 1 else 0) ≤
        channel.available c + if (call.body channel).2.signalled = some c then 1 else 0) ∧
    ((call.body channel).2 = .wait → call.condition = some c →
      (call.body channel).1.closed = false ∧ (call.body channel).1.available c = 0) ∧
    ((call.body channel).2 ≠ .closed → (call.body channel).1.closed = channel.closed) := by
  cases call <;> cases c <;> simp only [Call.body, grayChannelsSend, grayChannelsReceive,
    grayChannelsTrySend, grayChannelsTryReceive, grayChannelsClose, grayChannelsLen] <;>
    split_ifs <;> simp_all [GrayChannelInternal.available, Call.condition, Outcome.signalled,
      GrayChannelInternal.push, GrayChannelInternal.pop] <;> omega

omit [Fintype ι] in
theorem card_add_le {S T : Finset ι} {i : ι} (hsub : S.erase i ⊆ T) {p : Prop} [Decidable p]
    (hmore : p → ∃ j ∈ T, j ∉ S) :
    S.card + (if p then 1 else 0) ≤ T.card + if i ∈ S then 1 else 0 := by
  have hcard : S.card = (S.erase i).card + if i ∈ S then 1 else 0 := by
    split_ifs with hi
    · exact (card_erase_add_one hi).symm
    · rw [erase_eq_of_notMem hi, Nat.add_zero]
  by_cases hp : p
  · obtain ⟨j, hj, hnew⟩ := hmore hp
    have hle := card_le_card (insert_subset hj hsub)
    rw [card_insert_of_notMem fun h => hnew (mem_of_mem_erase h)] at hle
    rw [if_pos hp]
    omega
  · have hle := card_le_card hsub
    rw [if_neg hp]
    omega

theorem System.Step.served (h : s.Step none t) (hs : s.Served) : t.Served := by
  have hruns : ∀ (i : ι) (call : Call), (∀ c, (s.threads i).runsFor c = false) →
      System.Served { s with threads := update s.threads i (.running call) } := by
    intro i call hi c k hk
    have hki : k ≠ i := by
      rintro rfl
      obtain ⟨_, hw, -⟩ := hk
      simp at hw
    simp only [update_of_ne hki] at hk
    obtain ⟨hopen, hle⟩ := hs c k hk
    refine ⟨hopen, hle.trans (Nat.cast_le.mpr (card_le_card fun j hj => ?_))⟩
    simp only [runners, mem_filter_univ] at hj ⊢
    have hji : j ≠ i := by
      rintro rfl
      exact Bool.false_ne_true ((hi c).symm.trans hj)
    rwa [update_of_ne hji]
  cases h with
  | call h call => exact hruns _ call fun c => by rw [h]; rfl
  | wake h => exact hruns _ _ fun c => by rw [h]; rfl

theorem System.SignalStep.served (h : s.SignalStep t) (hs : s.Served) : t.Served := by
  cases h with
  | idle h => exact h.served hs
  | @act i call h threads hends =>
    intro c k hk
    change (threads k).WaitsFor c at hk
    have hold : threads k = (s.act i call).threads k := by
      rcases hends.eq_or k with heq | ⟨_, -, hrun⟩
      · exact heq
      · obtain ⟨_, hw, -⟩ := hk
        cases hrun.symm.trans hw
    have hbefore := hold ▸ hk
    by_cases hki : k = i
    · -- The body of the thread has just found nothing.
      subst hki
      obtain ⟨call', hw, hc⟩ := hbefore
      simp only [System.act, update_self] at hw
      have hwait : (call.body s.channel).2 = .wait ∧ call = call' := by
        unfold threadAfter at hw
        split at hw
        · exact ⟨by assumption, Thread.waiting.inj hw⟩
        · cases hw
      obtain ⟨hopen, hzero⟩ := (call.body_available s.channel c).2.1 hwait.1 (hwait.2 ▸ hc)
      exact ⟨hopen, hzero.trans_le (Int.natCast_nonneg _)⟩
    · have hothers : ∀ j ≠ i, threads j = s.threads j ∨ ∃ call,
          s.threads j = .waiting call ∧ threads j = .running call := fun j hj => by
        have heq := hends.eq_or j
        simp only [System.act, update_of_ne hj] at heq
        exact heq
      have hwaits := hbefore
      simp only [System.act, update_of_ne hki] at hwaits
      obtain ⟨hopen, hle⟩ := hs c k hwaits
      obtain ⟨hgains, -, hkeeps⟩ := call.body_available s.channel c
      have hopen' : (call.body s.channel).1.closed = false :=
        (hkeeps fun hclosed => hends.broadcast hclosed k c hk).trans hopen
      refine ⟨hopen', ?_⟩
      change (call.body s.channel).1.available c ≤ (runners c threads).card
      rcases hgains hopen' with hzero | hgain
      · exact hzero.trans (Int.natCast_nonneg _)
      have hcard := card_add_le (i := i) (S := runners c s.threads) (T := runners c threads)
        (p := (call.body s.channel).2.signalled = some c) (fun j hj => ?_) fun hsignalled => ?_
      · have hi : i ∈ runners c s.threads ↔ call.condition = some c := by
          rw [runners, mem_filter_univ, h]
          exact beq_iff_eq
        simp only [hi] at hcard
        split_ifs at hgain hcard <;> omega
      · obtain ⟨hji, hj⟩ := mem_erase.mp hj
        rw [runners, mem_filter_univ] at hj ⊢
        rcases hothers j hji with heq | ⟨_, hw, -⟩
        · rwa [heq]
        · rw [hw] at hj
          cases hj
      · obtain ⟨j, ⟨call', hw, -⟩, hrun⟩ := hends.signal c k hsignalled hbefore
        refine ⟨j, (mem_filter_univ _).mpr hrun, fun hj => ?_⟩
        rw [runners, mem_filter_univ] at hj
        simp only [System.act] at hw
        rcases eq_or_ne j i with rfl | hji
        · rw [update_self] at hw
          cases hout : (call.body s.channel).2 with
          | wait => rw [hout] at hsignalled; cases hsignalled
          | _ => rw [hout] at hw; cases hw
        · rw [update_of_ne hji] at hw
          rw [hw] at hj
          cases hj

omit [Fintype ι] in
theorem System.SignalStep.pending (h : s.SignalStep t) (hs : ∃ values, s.Pending values) :
    ∃ values, t.Pending values := by
  obtain ⟨values, hs⟩ := hs
  cases h with
  | idle h => exact h.pending hs
  | act h => exact (System.Step.act h).pending hs

/-- With signals, too, the ring holds what is accepted and not delivered, and no wakeup is lost. If
no thread runs, those that wait do so for one condition, and the channel does not have it. -/
theorem grayChannels_signals {capacity : ℤ} {buffer : List ℤ} (hcapacity : 1 ≤ capacity)
    (hbuffer : (buffer.length : ℤ) = capacity)
    (h : Relation.ReflTransGen System.SignalStep (System.start capacity buffer) s) :
    (∃ values, s.channel.Holds values ∧ s.accepted = s.delivered ++ values) ∧ s.Served ∧
      ((∀ i call, s.threads i ≠ .running call) → ∀ c i, (s.threads i).WaitsFor c →
        s.channel.available c = 0 ∧ ∀ c' j, (s.threads j).WaitsFor c' → c' = c) := by
  have hinv : (∃ values, s.Pending values) ∧ s.Served := by
    induction h with
    | refl => exact ⟨⟨[], .start hcapacity hbuffer, rfl⟩, fun c i ⟨_, hw, _⟩ => by cases hw⟩
    | tail _ hstep ih => exact ⟨hstep.pending ih.1, hstep.served ih.2⟩
  obtain ⟨⟨values, hholds, hacc⟩, hserved⟩ := hinv
  refine ⟨⟨values, hholds, hacc⟩, hserved, fun hidle c i hi => ?_⟩
  have hbounds := hholds.count_bounds
  have hpos := hholds.capacity_pos
  have hzero : ∀ c i, (s.threads i).WaitsFor c → s.channel.available c = 0 := by
    intro c i hi
    have hle := (hserved c i hi).2
    rw [runners, filter_false_of_mem, card_empty] at hle
    · cases c <;> simp only [GrayChannelInternal.available] at hle ⊢ <;> omega
    · intro j _ hj
      cases hthread : s.threads j with
      | running call => exact hidle j call hthread
      | _ => rw [hthread] at hj; cases hj
  have hc := hzero c i hi
  refine ⟨hc, fun c' j hj => ?_⟩
  have hc' := hzero c' j hj
  cases c <;> cases c' <;> simp only [GrayChannelInternal.available] at hc hc' <;> first | rfl | omega

/-- A thread receives from a new channel, and waits. -/
theorem grayChannels_signals_receive : ∃ s : System Unit,
    (s.threads ()).WaitsFor .notEmpty ∧ s.Served ∧ s.channel.available .notEmpty = 0 := by
  have hrun : Relation.ReflTransGen System.SignalStep (System.start 1 [0] : System Unit) _ :=
    .tail (.single (.idle (.call (i := ()) rfl .receive)))
      (.act (i := ()) rfl ⟨fun _ => .inl rfl, fun _ _ h => (by cases h), fun h => (by cases h)⟩)
  exact ⟨_, ⟨_, rfl, rfl⟩, (grayChannels_signals le_rfl rfl hrun).2.1, rfl⟩

end Grayscale.Channels
