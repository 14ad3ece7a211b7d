import Mathlib.Algebra.Order.Ring.Int
import Mathlib.Data.List.TakeDrop
import Grayscale.Library.RingBuffer

/-!
# Channels

The channels of `stdlib/channels.c`. A call holds the mutex of its channel from its start to its
return, except while it waits for a condition, so a call is a sequence of atomic bodies: each tests
the condition of the loop and either waits or does the work of the call.
-/

namespace Grayscale

open List Function

namespace Channels

/-! ### Channels and calls -/

/-- `GrayChannelInternal`, without the mutex and the conditions. -/
structure GrayChannelInternal where
  buffer : List ℤ
  capacity : ℤ
  count : ℤ
  head : ℤ
  tail : ℤ
  closed : Bool
  deriving DecidableEq

/-- The channel of `gray_channels_open`, with the buffer that `malloc` returns. -/
def grayChannelsOpen (capacity : ℤ) (buffer : List ℤ) : GrayChannelInternal :=
  ⟨buffer, capacity, 0, 0, 0, false⟩

/-- The calls on a channel. -/
inductive Call
  | send (value : ℤ)
  | receive
  | trySend (value : ℤ)
  | tryReceive
  | close
  | len
  deriving DecidableEq

/-- What comes of one body of a call. -/
inductive Outcome
  /-- `pthread_cond_wait`: the call goes on later, at the test of its loop. -/
  | wait
  /-- The panic `P0172`. -/
  | panic
  | sent
  | received (value : ℤ)
  /-- `receive` returns its default 0. -/
  | receivedDefault
  | triedSend (accepted : Bool)
  | triedReceive (v0 : ℤ) (v1 : Bool)
  | closed
  | length (buffered : ℤ)
  deriving DecidableEq

/-- The write of a value behind the last one. -/
def GrayChannelInternal.push (channel : GrayChannelInternal) (value : ℤ) : GrayChannelInternal :=
  { channel with
    buffer := channel.buffer.set channel.tail.toNat value
    tail := (channel.tail + 1).tmod channel.capacity
    count := channel.count + 1 }

/-- The value at the head. -/
def GrayChannelInternal.front (channel : GrayChannelInternal) : ℤ :=
  channel.buffer.getD channel.head.toNat 0

/-- The removal of the value at the head. -/
def GrayChannelInternal.pop (channel : GrayChannelInternal) : GrayChannelInternal := { channel with
    head := (channel.head + 1).tmod channel.capacity
    count := channel.count - 1 }

/-- `gray_channels_send`, from the test of its loop on. -/
def grayChannelsSend (channel : GrayChannelInternal) (value : ℤ) : GrayChannelInternal × Outcome :=
  if channel.count = channel.capacity ∧ channel.closed = false then (channel, .wait)
  else if channel.closed then (channel, .panic)
  else (channel.push value, .sent)

/-- `gray_channels_receive`, from the test of its loop on. -/
def grayChannelsReceive (channel : GrayChannelInternal) : GrayChannelInternal × Outcome :=
  if channel.count = 0 ∧ channel.closed = false then (channel, .wait)
  else if channel.count = 0 ∧ channel.closed then (channel, .receivedDefault)
  else (channel.pop, .received channel.front)

def grayChannelsTrySend (channel : GrayChannelInternal) (value : ℤ) :
    GrayChannelInternal × Outcome :=
  if channel.count = channel.capacity ∨ channel.closed then (channel, .triedSend false)
  else (channel.push value, .triedSend true)

def grayChannelsTryReceive (channel : GrayChannelInternal) : GrayChannelInternal × Outcome :=
  if channel.count = 0 then (channel, .triedReceive 0 false)
  else (channel.pop, .triedReceive channel.front true)

def grayChannelsClose (channel : GrayChannelInternal) : GrayChannelInternal × Outcome :=
  ({ channel with closed := true }, .closed)

def grayChannelsLen (channel : GrayChannelInternal) : GrayChannelInternal × Outcome :=
  (channel, .length channel.count)

/-- What a call does under the mutex. -/
def Call.body (call : Call) (channel : GrayChannelInternal) : GrayChannelInternal × Outcome :=
  match call with
  | send value => grayChannelsSend channel value
  | receive => grayChannelsReceive channel
  | trySend value => grayChannelsTrySend channel value
  | tryReceive => grayChannelsTryReceive channel
  | close => grayChannelsClose channel
  | len => grayChannelsLen channel

def accepted : Call → Outcome → List ℤ
  | .send value, .sent => [value]
  | .trySend value, .triedSend true => [value]
  | _, _ => []

/-- The values that a body delivers to its caller. -/
def delivered : Outcome → List ℤ
  | .received value => [value]
  | .triedReceive value true => [value]
  | _ => []

/-- The body is the last of a call that receives. -/
def Outcome.IsReceive : Outcome → Bool
  | received _ | receivedDefault | triedReceive _ _ => true
  | _ => false

/-! ### Threads -/

inductive Thread
  | outside
  /-- In a call, at the lock of the mutex or at the test of the loop. -/
  | running (call : Call)
  /-- In a call, waiting for a condition. -/
  | waiting (call : Call)

/-- The threads and their channel, with the values accepted and delivered so far. -/
structure System (ι : Type*) where
  channel : GrayChannelInternal
  threads : ι → Thread
  accepted : List ℤ
  delivered : List ℤ

variable {ι : Type*} [DecidableEq ι]

/-- The system in which the channel is new. -/
def System.start (capacity : ℤ) (buffer : List ℤ) : System ι :=
  ⟨grayChannelsOpen capacity buffer, fun _ => .outside, [], []⟩

def threadAfter (call : Call) : Outcome → Thread
  | .wait => .waiting call
  | _ => .outside

/-- The system after a body of the call of the thread `i`. -/
def System.act (s : System ι) (i : ι) (call : Call) : System ι where
  channel := (call.body s.channel).1
  threads := update s.threads i (threadAfter call (call.body s.channel).2)
  accepted := s.accepted ++ Channels.accepted call (call.body s.channel).2
  delivered := s.delivered ++ Channels.delivered (call.body s.channel).2

/-- A step of one thread, and the outcome of the body if it is one. -/
inductive System.Step : System ι → Option Outcome → System ι → Prop
  | call {s : System ι} {i : ι} (h : s.threads i = .outside) (call : Call) :
    Step s none { s with threads := update s.threads i (.running call) }
  /-- A wait ends. `pthread_cond_wait` may do so at any time, so no signal is asked for. -/
  | wake {s : System ι} {i : ι} {call : Call} (h : s.threads i = .waiting call) :
    Step s none { s with threads := update s.threads i (.running call) }
  | act {s : System ι} {i : ι} {call : Call} (h : s.threads i = .running call) :
    Step s (some (call.body s.channel).2) (s.act i call)

/-- Any number of steps, with the outcomes of their bodies. -/
inductive System.Run : System ι → List Outcome → System ι → Prop
  | refl (s : System ι) : Run s [] s
  | step {s t u : System ι} {outcomes : List Outcome} {outcome : Option Outcome}
    (h : Run s outcomes t) (hstep : t.Step outcome u) : Run s (outcomes ++ outcome.toList) u

/-! ### The ring -/

/-- The values in a channel, and how they lie in its ring. -/
structure GrayChannelInternal.Holds (channel : GrayChannelInternal) (values : List ℤ) : Prop where
  capacity_eq : channel.capacity = channel.buffer.length
  count_eq : channel.count = values.length
  head_nonneg : 0 ≤ channel.head
  tail_eq : channel.tail = (channel.head + channel.count) % channel.capacity
  ring : Ring channel.buffer channel.head.toNat values

namespace GrayChannelInternal.Holds

variable {channel : GrayChannelInternal} {values : List ℤ}

theorem start {capacity : ℤ} {buffer : List ℤ} (hcap : 1 ≤ capacity)
    (hbuf : (buffer.length : ℤ) = capacity) : (grayChannelsOpen capacity buffer).Holds [] := by
  refine ⟨hbuf.symm, rfl, le_rfl, rfl, Ring.nil ?_⟩
  show 0 < buffer.length
  omega

theorem count_bounds (h : channel.Holds values) :
    0 ≤ channel.count ∧ channel.count ≤ channel.capacity := by
  have hle := h.ring.length_le
  rw [h.count_eq, h.capacity_eq]
  omega

theorem capacity_pos (h : channel.Holds values) : 0 < channel.capacity := by
  have hlt := h.ring.head_lt
  rw [h.capacity_eq]
  omega

theorem push (h : channel.Holds values) (hroom : channel.count ≠ channel.capacity) (value : ℤ) :
    (channel.push value).Holds (values ++ [value]) := by
  have hbnd := h.count_bounds
  have hpos := h.capacity_pos
  have hhead := h.head_nonneg
  have hcnt := h.count_eq
  have hlen := h.capacity_eq
  have htail : channel.tail.toNat = (channel.head.toNat + values.length) % channel.buffer.length := by
    rw [h.tail_eq, hcnt, hlen, Int.toNat_emod (by omega) (by omega), Int.toNat_natCast,
      Int.toNat_add hhead (by omega)]
    rfl
  have htail' : 0 ≤ channel.tail := by
    rw [h.tail_eq]
    exact Int.emod_nonneg _ hpos.ne'
  refine ⟨?_, ?_, hhead, ?_, ?_⟩
  · simp only [GrayChannelInternal.push, List.length_set, hlen]
  · simp only [GrayChannelInternal.push, hcnt, length_append, length_singleton]
    rfl
  · show (channel.tail + 1).tmod channel.capacity = (channel.head + (channel.count + 1)) %
      channel.capacity
    rw [Int.tmod_eq_emod_of_nonneg (by omega), h.tail_eq, Int.emod_add_emod, add_assoc]
  · simp only [GrayChannelInternal.push, htail]
    exact h.ring.push (by omega) value

theorem pop {value : ℤ} (h : channel.Holds (value :: values)) :
    channel.front = value ∧ channel.pop.Holds values := by
  have hpos := h.capacity_pos
  have hhead := h.head_nonneg
  have hcnt := h.count_eq
  have hlen := h.capacity_eq
  obtain ⟨hfro, hring⟩ := h.ring.pop
  rw [length_cons] at hcnt
  refine ⟨by rw [GrayChannelInternal.front, getD_eq_getElem?_getD, hfro]; rfl, hlen, ?_, ?_, ?_, ?_⟩
  · simp only [GrayChannelInternal.pop]
    omega
  · show 0 ≤ (channel.head + 1).tmod channel.capacity
    exact Int.tmod_nonneg _ (by omega)
  · show channel.tail = ((channel.head + 1).tmod channel.capacity + (channel.count - 1)) %
      channel.capacity
    rw [Int.tmod_eq_emod_of_nonneg (by omega), Int.emod_add_emod, h.tail_eq]
    congr 1
    omega
  · have hnext : ((channel.head + 1).tmod channel.capacity).toNat =
        (channel.head.toNat + 1) % channel.buffer.length := by
      rw [Int.tmod_eq_emod_of_nonneg (by omega), hlen, Int.toNat_emod (by omega) (by omega),
        Int.toNat_natCast, Int.toNat_add hhead (by omega)]
      rfl
    simp only [GrayChannelInternal.pop, hnext]
    exact hring

theorem eq_nil (h : channel.Holds values) (hcnt : channel.count = 0) : values = [] := by
  rw [h.count_eq] at hcnt
  exact length_eq_zero_iff.mp (by omega)

theorem exists_cons (h : channel.Holds values) (hcnt : channel.count ≠ 0) :
    ∃ value rest, values = value :: rest := by
  cases values with
  | nil => exact absurd h.count_eq hcnt
  | cons value rest => exact ⟨value, rest, rfl⟩

end GrayChannelInternal.Holds

/-! ### Bodies -/

/-- What a body can do to a channel that holds `values`: the values before it and those it accepts
are those it delivers and the values after it. -/
structure BodySpec (call : Call) (channel : GrayChannelInternal) (values : List ℤ)
    (after : GrayChannelInternal) (outcome : Outcome) : Prop where
  holds : ∃ values', after.Holds values' ∧
    values ++ accepted call outcome = delivered outcome ++ values'
  delivered_eq : delivered outcome = if outcome.IsReceive then values.take 1 else []
  closed : channel.closed = true →
    after.closed = true ∧ accepted call outcome = [] ∧ outcome ≠ .wait
  receivedDefault : outcome = .receivedDefault → channel.closed = true ∧ values = []

section Bodies

variable {channel : GrayChannelInternal} {values : List ℤ} {call : Call} {outcome : Outcome}

theorem bodySpec_idle (h : channel.Holds values) (hacc : accepted call outcome = [])
    (hdeliv : delivered outcome = []) (hreceive : outcome.IsReceive → values = [])
    (hwait : channel.closed = true → outcome ≠ .wait)
    (hdef : outcome = .receivedDefault → channel.closed = true) :
    BodySpec call channel values channel outcome := by
  refine ⟨⟨values, h, ?_⟩, ?_, fun hcls => ⟨hcls, hacc, hwait hcls⟩,
    fun houtcome => ⟨hdef houtcome, hreceive (by rw [houtcome]; rfl)⟩⟩
  · rw [hacc, hdeliv, append_nil, nil_append]
  · rw [hdeliv]
    split_ifs with hr
    · rw [hreceive hr, take_nil]
    · rfl

theorem bodySpec_push (h : channel.Holds values) (hroom : channel.count ≠ channel.capacity)
    (hopen : channel.closed = false) {value : ℤ} (hacc : accepted call outcome = [value])
    (hdeliv : delivered outcome = []) (hreceive : outcome.IsReceive = false) :
    BodySpec call channel values (channel.push value) outcome := by
  refine ⟨⟨values ++ [value], h.push hroom value, ?_⟩, ?_, fun hcls => ?_, fun houtcome => ?_⟩
  · rw [hacc, hdeliv, nil_append]
  · rw [hdeliv, hreceive]
    rfl
  · rw [hopen] at hcls
    cases hcls
  · rw [houtcome] at hreceive
    cases hreceive

theorem bodySpec_pop (h : channel.Holds values) (hcnt : channel.count ≠ 0)
    (hacc : accepted call outcome = []) (hdeliv : delivered outcome = [channel.front])
    (hreceive : outcome.IsReceive = true) (hdef : outcome ≠ .receivedDefault)
    (hwait : outcome ≠ .wait) : BodySpec call channel values channel.pop outcome := by
  obtain ⟨value, rest, rfl⟩ := h.exists_cons hcnt
  obtain ⟨hfro, hpop⟩ := h.pop
  refine ⟨⟨rest, hpop, ?_⟩, ?_, fun hcls => ⟨hcls, hacc, hwait⟩,
    fun houtcome => absurd houtcome hdef⟩
  · rw [hacc, hdeliv, hfro, append_nil, singleton_append]
  · rw [hdeliv, hreceive, hfro]
    rfl

theorem BodySpec.of_eq {result : GrayChannelInternal × Outcome} {after : GrayChannelInternal}
    (heq : result = (after, outcome)) (h : BodySpec call channel values after outcome) :
    BodySpec call channel values result.1 result.2 := by
  rw [heq]
  exact h

theorem Call.bodySpec (call : Call) (h : channel.Holds values) :
    BodySpec call channel values (call.body channel).1 (call.body channel).2 := by
  cases call with
  | send value =>
    by_cases hwait : channel.count = channel.capacity ∧ channel.closed = false
    · exact .of_eq (if_pos hwait) (bodySpec_idle h rfl rfl (by simp [Outcome.IsReceive])
        (by simp [hwait.2]) (by simp))
    cases hcls : channel.closed with
    | true =>
      exact .of_eq ((if_neg hwait).trans (if_pos hcls)) (bodySpec_idle h rfl rfl
        (by simp [Outcome.IsReceive]) (by simp) (by simp))
    | false =>
      exact .of_eq ((if_neg hwait).trans (if_neg (by simp [hcls])))
        (bodySpec_push h (fun hfull => hwait ⟨hfull, hcls⟩) hcls rfl rfl rfl)
  | receive =>
    by_cases hwait : channel.count = 0 ∧ channel.closed = false
    · exact .of_eq (if_pos hwait) (bodySpec_idle h rfl rfl (by simp [Outcome.IsReceive])
        (by simp [hwait.2]) (by simp))
    by_cases hdef : channel.count = 0 ∧ channel.closed
    · exact .of_eq ((if_neg hwait).trans (if_pos hdef)) (bodySpec_idle h rfl rfl
        (fun _ => h.eq_nil hdef.1) (by simp) (fun _ => hdef.2))
    have hcnt : channel.count ≠ 0 := fun hzero => by
      cases hcls : channel.closed
      · exact hwait ⟨hzero, hcls⟩
      · exact hdef ⟨hzero, hcls⟩
    exact .of_eq ((if_neg hwait).trans (if_neg hdef))
      (bodySpec_pop h hcnt rfl rfl rfl (by simp) (by simp))
  | trySend value =>
    by_cases hfail : channel.count = channel.capacity ∨ channel.closed
    · exact .of_eq (if_pos hfail) (bodySpec_idle h rfl rfl (by simp [Outcome.IsReceive])
        (by simp) (by simp))
    · rw [not_or, Bool.not_eq_true] at hfail
      exact .of_eq (if_neg (by simp [hfail])) (bodySpec_push h hfail.1 hfail.2 rfl rfl rfl)
  | tryReceive =>
    by_cases hcnt : channel.count = 0
    · exact .of_eq (if_pos hcnt) (bodySpec_idle h rfl rfl (fun _ => h.eq_nil hcnt) (by simp)
        (by simp))
    · exact .of_eq (if_neg hcnt) (bodySpec_pop h hcnt rfl rfl rfl (by simp) (by simp))
  | close =>
    exact ⟨⟨values, ⟨h.capacity_eq, h.count_eq, h.head_nonneg, h.tail_eq, h.ring⟩,
      append_nil _⟩, rfl, fun _ => ⟨rfl, rfl, by simp [Call.body, grayChannelsClose]⟩,
      by simp [Call.body, grayChannelsClose]⟩
  | len =>
    exact .of_eq rfl (bodySpec_idle h rfl rfl (by simp [Outcome.IsReceive]) (by simp) (by simp))

theorem Call.body_capacity (call : Call) (channel : GrayChannelInternal) :
    (call.body channel).1.capacity = channel.capacity := by
  cases call <;> simp only [Call.body, grayChannelsSend, grayChannelsReceive, grayChannelsTrySend,
    grayChannelsTryReceive, grayChannelsClose, grayChannelsLen] <;> split_ifs <;> rfl

end Bodies

/-! ### Runs -/

/-- The channel holds the values that are accepted and not delivered. -/
def System.Pending (s : System ι) (values : List ℤ) : Prop :=
  s.channel.Holds values ∧ s.accepted = s.delivered ++ values

variable {s t : System ι} {outcome : Option Outcome} {outcomes : List Outcome} {values : List ℤ}

theorem System.Step.cases (h : s.Step outcome t) :
    (outcome = none ∧ t.channel = s.channel ∧ t.accepted = s.accepted ∧ t.delivered = s.delivered) ∨
      ∃ i call, outcome = some (call.body s.channel).2 ∧ t = s.act i call := by
  cases h with
  | call | wake => exact .inl ⟨rfl, rfl, rfl, rfl⟩
  | act => exact .inr ⟨_, _, rfl, rfl⟩

theorem System.Step.pending (h : s.Step outcome t) (hs : s.Pending values) :
    ∃ values', t.Pending values' := by
  rcases h.cases with ⟨-, hchannel, hacc, hdeliv⟩ | ⟨i, call, -, rfl⟩
  · exact ⟨values, by rw [hchannel]; exact hs.1, by rw [hacc, hdeliv]; exact hs.2⟩
  · obtain ⟨values', hvals', heq⟩ := (call.bodySpec hs.1).holds
    refine ⟨values', hvals', ?_⟩
    simp only [System.act]
    rw [hs.2, append_assoc, heq, append_assoc]

theorem System.Run.pending (h : s.Run outcomes t) (hs : s.Pending values) :
    ∃ values', t.Pending values' := by
  induction h with
  | refl => exact ⟨values, hs⟩
  | step _ hstep ih =>
    obtain ⟨values', hvals'⟩ := ih
    exact hstep.pending hvals'

theorem System.Run.capacity (h : s.Run outcomes t) : t.channel.capacity = s.channel.capacity := by
  induction h with
  | refl => rfl
  | step _ hstep ih =>
    rcases hstep.cases with ⟨-, hchannel, -⟩ | ⟨_, call, -, rfl⟩
    · rw [hchannel, ih]
    · exact (call.body_capacity _).trans ih

theorem System.Step.closed (h : s.Step outcome t) (hs : s.Pending values)
    (hcls : s.channel.closed = true) : t.channel.closed = true ∧ t.accepted = s.accepted ∧
      t.delivered = s.delivered ++ values.take (outcome.toList.countP Outcome.IsReceive) := by
  rcases h.cases with ⟨rfl, hchannel, hacc, hdeliv⟩ | ⟨i, call, rfl, rfl⟩
  · rw [hchannel]
    exact ⟨hcls, hacc, by simp [hdeliv]⟩
  · have hspec := call.bodySpec hs.1
    obtain ⟨haft, hnone, -⟩ := hspec.closed hcls
    refine ⟨haft, ?_, ?_⟩ <;> simp only [System.act]
    · rw [hnone, append_nil]
    · rw [hspec.delivered_eq, Option.toList_some, countP_singleton]
      split_ifs <;> simp

theorem System.Run.closed (h : s.Run outcomes t) (hs : s.Pending values)
    (hcls : s.channel.closed = true) : t.channel.closed = true ∧ t.accepted = s.accepted ∧
      t.delivered = s.accepted.take (s.delivered.length + outcomes.countP Outcome.IsReceive) := by
  induction h with
  | refl => simp [hcls, hs.2]
  | @step _ _ outcomes _ hrun hstep ih =>
    obtain ⟨hmid, hacc, hdeliv⟩ := ih
    obtain ⟨values', hvals'⟩ := hrun.pending hs
    obtain ⟨haft, hacc', hdeliv'⟩ := hstep.closed hvals' hmid
    refine ⟨haft, hacc'.trans hacc, ?_⟩
    have hrest : values' =
        s.accepted.drop (s.delivered.length + outcomes.countP Outcome.IsReceive) := by
      have hspl := hvals'.2
      rw [hacc, hdeliv] at hspl
      exact (append_cancel_left ((take_append_drop _ _).trans hspl)).symm
    rw [hdeliv', hdeliv, hrest, countP_append, ← Nat.add_assoc]
    exact List.take_add.symm

/-- In every state of every run: the ring is in order; what is delivered is a prefix of what is
accepted, and the ring holds the rest; a receive that ends with its default does so on a closed and
empty channel; and after `close` nothing is accepted, no call waits, and the receives that end
deliver what was accepted before. -/
theorem grayChannels_fifo {capacity : ℤ} {buffer : List ℤ} (hcapacity : 1 ≤ capacity)
    (hbuffer : (buffer.length : ℤ) = capacity)
    (h : (System.start capacity buffer : System ι).Run outcomes s) :
    (0 ≤ s.channel.count ∧ s.channel.count ≤ capacity ∧
      s.channel.tail = (s.channel.head + s.channel.count) % capacity) ∧
    (∃ values, s.channel.Holds values ∧ s.accepted = s.delivered ++ values) ∧
    (∀ t, s.Step (some .receivedDefault) t →
      s.channel.closed = true ∧ s.channel.count = 0 ∧ s.delivered = s.accepted) ∧
    (s.channel.closed = true → (∀ t, ¬ s.Step (some .wait) t) ∧
      ∀ outcomes' t, s.Run outcomes' t → t.accepted = s.accepted ∧ t.delivered =
          s.accepted.take (s.delivered.length + outcomes'.countP Outcome.IsReceive)) := by
  have hst : (System.start capacity buffer : System ι).Pending [] := ⟨.start hcapacity hbuffer, rfl⟩
  obtain ⟨values, hholds, hacc⟩ := h.pending hst
  have hbnd := hholds.count_bounds
  have htail := hholds.tail_eq
  rw [h.capacity] at hbnd htail
  refine ⟨⟨hbnd.1, hbnd.2, htail⟩, ⟨values, hholds, hacc⟩, fun t hstep => ?_,
    fun hcls => ⟨fun t hstep => ?_, fun outcomes' t hrun => ?_⟩⟩
  · rcases hstep.cases with ⟨h, -⟩ | ⟨i, call, houtcome, -⟩
    · cases h
    · obtain ⟨hcls, hemp⟩ := (call.bodySpec hholds).receivedDefault (Option.some.inj houtcome).symm
      rw [hemp] at hholds hacc
      exact ⟨hcls, hholds.count_eq, by rw [hacc, append_nil]⟩
  · rcases hstep.cases with ⟨h, -⟩ | ⟨i, call, houtcome, -⟩
    · cases h
    · exact ((call.bodySpec hholds).closed hcls).2.2 (Option.some.inj houtcome).symm
  · exact (hrun.closed ⟨hholds, hacc⟩ hcls).2

/-- One thread sends through a channel of capacity 1. -/
theorem grayChannels_fifo_send :
    ∃ s : System Bool, (System.start 1 [0]).Run [.sent] s ∧ s.accepted = [5] ∧
      ∃ values, s.channel.Holds values ∧ s.accepted = s.delivered ++ values := by
  have hrun : (System.start 1 [0] : System Bool).Run [.sent] _ :=
    .step (.step (.refl _) (.call (i := true) rfl (.send 5))) (.act (i := true) rfl)
  exact ⟨_, hrun, rfl, (grayChannels_fifo le_rfl rfl hrun).2.1⟩

end Channels

end Grayscale
