import ChartAdvisor.Proofs.Draft.Coherence

/-!
# The channel counter under arbitrary calls

Some rules ask the counter of a draft whether a channel is used, others look through the encodings.
Calls are data here, so that any of them may come in any order and be refused. A call moves at most
one encoding from one channel to another, and the counter makes that very move: as long as it is
exact before a call, it never has to take away from a channel that it holds to be empty.
-/
namespace ChartAdvisor

theorem Encoding.countedChannel?_eq_some_iff {e : Encoding} {c : Channel} :
    e.countedChannel? = some c ↔ e.channel = .fixed c ∧ e.isDisabledAutoCount = false := by
  unfold countedChannel? channel?
  cases hd : e.isDisabledAutoCount with
  | true => simp
  | false => cases e.channel <;> simp [Slot.value?]

theorem occupancy_eq_length_filter (encodings : List Encoding) (c : Channel) :
    occupancy encodings c =
      (encodings.filter fun e => e.channel = .fixed c ∧ e.isDisabledAutoCount = false).length := by
  rw [occupancy, List.countP_eq_length_filter]
  congr 1
  refine List.filter_congr fun e _ => ?_
  rw [Bool.eq_iff_iff, beq_iff_eq, decide_eq_true_iff]
  exact Encoding.countedChannel?_eq_some_iff

theorem occupancy_pos_iff (encodings : List Encoding) (c : Channel) :
    0 < occupancy encodings c ↔
      ∃ e ∈ encodings, e.channel = .fixed c ∧ e.isDisabledAutoCount = false := by
  simp only [occupancy, List.countP_pos_iff, beq_iff_eq, Encoding.countedChannel?_eq_some_iff]

namespace ChannelCount

theorem move_self (n : ChannelCount) (c : Option Channel) : n.move c c = n := if_pos rfl

/-- A move off a channel for which nothing is counted, where the subtraction stops at zero. -/
def Saturates (n : ChannelCount) (before after : Option Channel) : Prop :=
  before ≠ after ∧ ∃ c, before = some c ∧ n.get c = 0

end ChannelCount

namespace Draft

/-- A change of a draft that a caller may ask for. -/
inductive Call
  | setMark (m : Mark)
  | resetMark
  | assign (index : Nat) (p : Property) (c : Choice)
  | reset (index : Nat) (p : Property)

namespace Call

/-- The draft that a call leaves, whether it succeeds or fails. -/
def apply (d : Draft) : Call → Draft
  | setMark m => (d.setMark m).1
  | resetMark => d.resetMark
  | assign i p c => (d.assign i p c).1
  | reset i p => (d.reset i p).1

/-- The number of the encoding that a call is about. -/
def index? : Call → Option Nat
  | setMark _ | resetMark => none
  | assign i _ _ | reset i _ => some i

/-- The channel on which the encoding that a call is about counts in a draft. -/
def channel? (call : Call) (d : Draft) : Option Channel :=
  (call.index?.bind d.encoding?).bind Encoding.countedChannel?

end Call

/-- The draft after some calls. -/
def after (d : Draft) (calls : List Call) : Draft := calls.foldl Call.apply d

theorem Derived.apply {d₀ d : Draft} (h : Derived d₀ d) (call : Call) :
    Derived d₀ (call.apply d) := by
  cases call with
  | setMark m => exact h.setMark m
  | resetMark => exact h.resetMark
  | assign i p c => exact h.assign i p c
  | reset i p => exact h.reset i p

theorem derived_after (d₀ : Draft) (calls : List Call) : Derived d₀ (d₀.after calls) := by
  suffices ∀ d, Derived d₀ d → Derived d₀ (calls.foldl Call.apply d) from this d₀ .refl
  induction calls with
  | nil => exact fun d h => h
  | cons call rest ih => exact fun d h => ih _ (h.apply call)

/-- The counter makes the move that a call makes, and stands still where it makes none. -/
theorem Coherent.channelCount_apply {d : Draft} (h : d.Coherent) (call : Call) :
    (call.apply d).channelCount =
      d.channelCount.move (call.channel? d) (call.channel? (call.apply d)) := by
  cases call with
  | setMark m =>
    change (d.setMark m).1.channelCount = d.channelCount
    unfold Draft.setMark
    split <;> rfl
  | resetMark =>
    change d.resetMark.channelCount = d.channelCount
    unfold Draft.resetMark
    split <;> rfl
  | assign i p c =>
    change (d.assign i p c).1.channelCount = d.channelCount.move
      ((d.encoding? i).bind Encoding.countedChannel?)
      (((d.assign i p c).1.encoding? i).bind Encoding.countedChannel?)
    rcases d.slotName_cases i p with ⟨s, e, hs, he⟩ | ⟨error, hn⟩
    · obtain ⟨o, ho⟩ := h.exists_origin he
      have hset (x : Encoding) : (d.query.encodings.set i x)[i]? = some x :=
        List.getElem?_set_self (List.getElem?_eq_some_iff.mp he).1
      rw [assign_eq hs he ho]
      rcases hc : e.choose o p c with ⟨changed, _ | error⟩
      · have hafter : ({ d.putEncoding i e changed with
            assignment := Table.insert s.name c d.assignment } : Draft).encoding? i =
            some changed := hset changed
        rw [hafter, he]
        rfl
      · -- A refused value may leave the encoding half changed, but on its channel.
        have hstays := Encoding.countedChannel?_choose (c := c) (p := p) (h.kind_eq he ho)
          (by rw [hc]; exact nofun)
        rw [hc] at hstays
        have hafter : ({ d with query := { d.query with
            encodings := d.query.encodings.set i changed } } : Draft).encoding? i =
            some changed := hset changed
        simp only [hafter, he, Option.bind_some, hstays, ChannelCount.move_self]
    · unfold Draft.assign
      rw [hn, ChannelCount.move_self]
  | reset i p =>
    change (d.reset i p).1.channelCount = d.channelCount.move
      ((d.encoding? i).bind Encoding.countedChannel?)
      (((d.reset i p).1.encoding? i).bind Encoding.countedChannel?)
    rcases d.slotName_cases i p with ⟨s, e, hs, he⟩ | ⟨error, hn⟩
    · obtain ⟨o, ho⟩ := h.exists_origin he
      have hset : (d.query.encodings.set i (e.restore o p))[i]? = some (e.restore o p) :=
        List.getElem?_set_self (List.getElem?_eq_some_iff.mp he).1
      rw [reset_eq hs he ho]
      have hafter : ({ d.putEncoding i e (e.restore o p) with
          assignment := Table.erase s.name d.assignment } : Draft).encoding? i =
          some (e.restore o p) := hset
      rw [hafter, he]
      rfl
    · unfold Draft.reset
      rw [hn, ChannelCount.move_self]

/-- Where the counter is exact, no call takes away from an empty channel. -/
theorem Coherent.not_saturates {d : Draft} (h : d.Coherent) (call : Call)
    (after : Option Channel) : ¬d.channelCount.Saturates (call.channel? d) after := by
  rintro ⟨-, c, hbefore, hzero⟩
  obtain ⟨e, he, hc⟩ := Option.bind_eq_some_iff.mp hbefore
  obtain ⟨i, -, hi⟩ := Option.bind_eq_some_iff.mp he
  have hpos : 0 < occupancy d.query.encodings c :=
    List.countP_pos_iff.mpr ⟨e, List.mem_of_getElem? hi, by simp [hc]⟩
  rw [h.counts] at hzero
  omega

/-- After any calls on a built draft, refused ones included, the counter of each channel is the
number of encodings on it that are no disabled counts of rows, and the next call, whichever it is,
moves the counter without stopping at zero. -/
theorem channelCount_exact {q : ChartQuery} {schema : Schema} {config : Config} {d₀ : Draft}
    (h : build q schema config = .ok d₀) (calls : List Call) :
    (∀ c, (d₀.after calls).channelCount.get c =
      ((d₀.after calls).query.encodings.filter fun e =>
        e.channel = .fixed c ∧ e.isDisabledAutoCount = false).length) ∧
    (∀ c, (d₀.after calls).channelUsed c = true ↔
      ∃ e ∈ (d₀.after calls).query.encodings,
        e.channel = .fixed c ∧ e.isDisabledAutoCount = false) ∧
    ∀ call : Call,
      (call.apply (d₀.after calls)).channelCount =
        (d₀.after calls).channelCount.move (call.channel? (d₀.after calls))
          (call.channel? (call.apply (d₀.after calls))) ∧
      ¬(d₀.after calls).channelCount.Saturates (call.channel? (d₀.after calls))
        (call.channel? (call.apply (d₀.after calls))) := by
  have hcoherent : (d₀.after calls).Coherent :=
    (derived_after d₀ calls).coherent (isBuilt_of_build h).coherent
  refine ⟨fun c => ?_, fun c => ?_, fun call => ⟨hcoherent.channelCount_apply call, ?_⟩⟩
  · rw [hcoherent.counts, occupancy_eq_length_filter]
  · rw [channelUsed, decide_eq_true_iff, hcoherent.counts, occupancy_pos_iff]
  · exact hcoherent.not_saturates call _

/-- A count of rows is switched off, put on a channel, switched on there, and asked to move to what
is no channel, with a call for an encoding that does not exist between. -/
def movingCount : List Call :=
  [.assign 0 .autoCount (.flag false), .assign 0 .channel (.channel .y),
    .assign 7 .bin (.flag true), .assign 0 .autoCount (.flag true),
    .assign 0 .channel (.flag true)]

/-- The count of rows counts once, on the channel on which it was switched on. -/
theorem channelCount_exact_movingCount :
    let schema : Schema := ⟨[⟨"Q", .quantitative, .number, ⟨1, none, none⟩, [], []⟩], by simp, by simp⟩
    ∃ d₀, build { mark := .fixed .point } schema { autoAddCount := true } = .ok d₀ ∧
      (d₀.after movingCount).channelUsed .y = true ∧
      ((d₀.after movingCount).query.encodings.filter fun e =>
        e.channel = .fixed .y ∧ e.isDisabledAutoCount = false).length = 1 := by
  intro schema
  obtain ⟨d₀, hd₀⟩ : ∃ d₀, build { mark := .fixed .point } schema { autoAddCount := true } = .ok d₀ :=
    ⟨_, rfl⟩
  obtain ⟨hcount, hused, -⟩ := channelCount_exact hd₀ movingCount
  have hone : (d₀.after movingCount).channelCount.get .y = 1 := by
    cases hd₀
    decide +kernel
  have hlength := (hcount .y).symm.trans hone
  refine ⟨d₀, hd₀, (hused .y).mpr ?_, hlength⟩
  obtain ⟨e, he⟩ := List.length_pos_iff_exists_mem.mp (hlength ▸ Nat.one_pos)
  obtain ⟨hmem, hon⟩ := List.mem_filter.mp he
  exact ⟨e, hmem, of_decide_eq_true hon⟩

end Draft
end ChartAdvisor
