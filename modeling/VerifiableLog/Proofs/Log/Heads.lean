import Mathlib.Data.List.Induction
import VerifiableLog.Proofs.Log.Run

/-!
The two heads of a log, the one it serves and the one its store holds, through all that happens to
it. A new head is dated no earlier than the one served before it. The stored head falls behind when
it cannot be written, and comes back when the log is opened again, unless leaves have come since.
-/

namespace VerifiableLog

theorem max_le_iff {left right bound : UInt64} :
    max left right ≤ bound ↔ left ≤ bound ∧ right ≤ bound := by
  have whole : max left right = if left ≤ right then right else left := rfl
  rw [whole]
  by_cases ordered : left ≤ right
  · rw [if_pos ordered]
    exact ⟨fun bounded => ⟨UInt64.le_trans ordered bounded, bounded⟩, And.right⟩
  · rw [if_neg ordered]
    have reversed := (UInt64.le_total left right).resolve_left ordered
    exact ⟨fun bounded => ⟨bounded, UInt64.le_trans reversed bounded⟩, And.left⟩

/-- What became of a head for a tree of the given size. It is dated by the clock, but no earlier
than the latest one. -/
inductive Published (now : Moment) (size : Nat) (stored latest : Option SignedTreeHead) :
    HeadOutcome → Option SignedTreeHead → Option SignedTreeHead → Prop
  | unsigned : Published now size stored latest .unsigned stored latest
  | kept {head : SignedTreeHead} (sized : head.treeSize.toNat = size)
      (dated : head.timestamp =
        max now.sinceEpoch ((latest.map SignedTreeHead.timestamp).getD 0)) :
      Published now size stored latest .kept (some head) (some head)
  | lost {head : SignedTreeHead} (sized : head.treeSize.toNat = size)
      (dated : head.timestamp =
        max now.sinceEpoch ((latest.map SignedTreeHead.timestamp).getD 0)) :
      Published now size stored latest .lost stored (some head)

theorem Published.cases_outcome {now : Moment} {size : Nat} {outcome : HeadOutcome}
    {stored latest storedAfter latestAfter : Option SignedTreeHead}
    (published : Published now size stored latest outcome storedAfter latestAfter) :
    (outcome = .unsigned ∧ storedAfter = stored ∧ latestAfter = latest) ∨
      ∃ head : SignedTreeHead, latestAfter = some head ∧ head.treeSize.toNat = size ∧
        head.timestamp = max now.sinceEpoch ((latest.map SignedTreeHead.timestamp).getD 0) ∧
        (outcome = .kept ∧ storedAfter = some head ∨ outcome = .lost ∧ storedAfter = stored) := by
  cases published with
  | unsigned => exact .inl ⟨rfl, rfl, rfl⟩
  | kept sized dated => exact .inr ⟨_, rfl, sized, dated, .inl ⟨rfl, rfl⟩⟩
  | lost sized dated => exact .inr ⟨_, rfl, sized, dated, .inr ⟨rfl, rfl⟩⟩

structure Heads where
  size : Nat
  stored : Option SignedTreeHead
  latest : Option SignedTreeHead

namespace Heads

def none : Heads := ⟨0, .none, .none⟩

/-- The head that an event starts from: to open a log is to start from the stored one. -/
def base (heads : Heads) (event : Event) : Option SignedTreeHead :=
  if event.reopens then heads.stored else heads.latest

def InUse (heads : Heads) (head : SignedTreeHead) : Prop :=
  head ∈ heads.stored ∨ head ∈ heads.latest

theorem inUse_of_base {heads : Heads} {event : Event} {head : SignedTreeHead}
    (member : head ∈ heads.base event) : heads.InUse head := by
  rw [base] at member
  split at member
  · exact .inl member
  · exact .inr member

theorem base_of_open {heads : Heads} {event : Event} (staysOpen : event.reopens = false) :
    heads.base event = heads.latest := by
  rw [base, staysOpen]
  rfl

end Heads

/-- What an event does to the heads. If the new head is lost, the stored one is of a smaller tree,
or else the event is a refresh that hands out the head. -/
inductive HeadMove (event : Event) (before : Heads) : Heads → Prop
  | rest (quiet : event.head = .notDue) :
      HeadMove event before ⟨before.size, before.stored, before.base event⟩
  | due {after : Heads} (grows : before.size ≤ after.size)
      (published : Published event.now after.size before.stored (before.base event) event.head
        after.stored after.latest)
      (ahead : event.head = .lost →
        (∀ old ∈ before.stored, old.treeSize.toNat < after.size) ∨
          event.refreshes = true ∧ event.servedHead? = after.latest) :
      HeadMove event before after

structure Serves (event : Event) (after : Heads) (head : SignedTreeHead) : Prop where
  staysOpen : event.reopens = false
  latest : after.latest = some head
  sized : head.treeSize.toNat = after.size

inductive History : List Event → Heads → Prop
  | start : History [] .none
  | next {events : List Event} {event : Event} {before after : Heads}
      (history : History events before) (move : HeadMove event before after)
      (serves : ∀ head, event.servedHead? = some head → Serves event after head) :
      History (events ++ [event]) after

def NoneLost (events : List Event) : Prop := ∀ event ∈ events, event.head ≠ .lost

def ClockForward (events : List Event) : Prop :=
  (events.filter fun event => event.head ≠ .notDue).Pairwise fun earlier later =>
    earlier.now.sinceEpoch ≤ later.now.sinceEpoch

def LostByRefresh (events : List Event) (head : SignedTreeHead) : Prop :=
  ∃ event ∈ events, event.refreshes = true ∧ event.servedHead? = some head ∧ event.head = .lost

/-- The second head is dated no earlier than the first, unless it is of a smaller tree, or of the
same tree while the first was lost. -/
def DatedAfter (events : List Event) (first second : SignedTreeHead) : Prop :=
  first.timestamp ≤ second.timestamp ∨ second.treeSize.toNat < first.treeSize.toNat ∨
    (second.treeSize.toNat = first.treeSize.toNat ∧ LostByRefresh events first)

theorem DatedAfter.refl (events : List Event) (head : SignedTreeHead) :
    DatedAfter events head head :=
  .inl (UInt64.le_refl _)

theorem DatedAfter.append {events : List Event} {first second : SignedTreeHead}
    (dated : DatedAfter events first second) (more : List Event) :
    DatedAfter (events ++ more) first second := by
  rcases dated with later | smaller | ⟨same, event, member, lost⟩
  · exact .inl later
  · exact .inr (.inl smaller)
  · exact .inr (.inr ⟨same, event, List.mem_append_left _ member, lost⟩)

def HasRead (events : List Event) (timestamp : UInt64) : Prop :=
  ∃ event ∈ events, event.head ≠ .notDue ∧ timestamp ≤ event.now.sinceEpoch

theorem HasRead.append {events : List Event} {timestamp : UInt64}
    (read : HasRead events timestamp) (more : List Event) : HasRead (events ++ more) timestamp := by
  obtain ⟨event, member, due, reached⟩ := read
  exact ⟨event, List.mem_append_left _ member, due, reached⟩

theorem ClockForward.beginning {events more : List Event}
    (forward : ClockForward (events ++ more)) : ClockForward events := by
  rw [ClockForward, List.filter_append, List.pairwise_append] at forward
  exact forward.1

theorem ClockForward.reads_later {events : List Event} {event : Event} {timestamp : UInt64}
    (forward : ClockForward (events ++ [event])) (due : event.head ≠ .notDue)
    (read : HasRead events timestamp) : timestamp ≤ event.now.sinceEpoch := by
  obtain ⟨past, member, pastDue, reached⟩ := read
  rw [ClockForward, List.filter_append, List.pairwise_append] at forward
  exact UInt64.le_trans reached (forward.2.2 past (by simp [member, pastDue]) event (by simp [due]))

/-! ### One event -/

theorem HeadMove.grows {event : Event} {before after : Heads}
    (move : HeadMove event before after) : before.size ≤ after.size := by
  cases move with
  | rest quiet => exact Nat.le_refl _
  | due grows published ahead => exact grows

theorem HeadMove.latest_cases {event : Event} {before after : Heads}
    (move : HeadMove event before after) :
    after.latest = before.base event ∨
      event.head ≠ .notDue ∧ ∃ head, after.latest = some head ∧
        head.treeSize.toNat = after.size ∧
        head.timestamp = max event.now.sinceEpoch
          (((before.base event).map SignedTreeHead.timestamp).getD 0) := by
  cases move with
  | rest quiet => exact .inl rfl
  | due grows published ahead =>
      rcases published.cases_outcome with
        ⟨_, _, unchanged⟩ | ⟨head, latest, sized, dated, kept | lost⟩
      · exact .inl unchanged
      · exact .inr ⟨by simp [kept.1], head, latest, sized, dated⟩
      · exact .inr ⟨by simp [lost.1], head, latest, sized, dated⟩

theorem HeadMove.keeps_date {event : Event} {before after : Heads} {timestamp : UInt64}
    (move : HeadMove event before after)
    (dated : ∃ head ∈ before.base event, timestamp ≤ head.timestamp) :
    ∃ head ∈ after.latest, timestamp ≤ head.timestamp := by
  rcases move.latest_cases with unchanged | ⟨_, head, published, _, timestampEq⟩
  · rwa [unchanged]
  · obtain ⟨old, base, dated⟩ := dated
    refine ⟨head, published, ?_⟩
    rw [timestampEq, Option.mem_def.mp base]
    exact UInt64.le_trans dated (max_le_iff.mp (UInt64.le_refl _)).2

theorem HeadMove.stored_cases {event : Event} {before after : Heads}
    (move : HeadMove event before after) :
    after.stored = before.stored ∨
      after.stored = after.latest ∧ ∀ head ∈ after.latest, head.treeSize.toNat = after.size := by
  cases move with
  | rest quiet => exact .inl rfl
  | due grows published ahead =>
      rcases published.cases_outcome with
        ⟨_, unchanged, _⟩ | ⟨head, latest, sized, _, ⟨_, stored⟩ | ⟨_, unchanged⟩⟩
      · exact .inl unchanged
      · rw [stored, latest]
        exact .inr ⟨rfl, by simpa using sized⟩
      · exact .inl unchanged

theorem HeadMove.inUse_cases {event : Event} {before after : Heads} {head : SignedTreeHead}
    (move : HeadMove event before after) (inUse : after.InUse head) :
    before.InUse head ∨ event.head ≠ .notDue ∧ head.timestamp = max event.now.sinceEpoch
      (((before.base event).map SignedTreeHead.timestamp).getD 0) := by
  have ofLatest : head ∈ after.latest → before.InUse head ∨ event.head ≠ .notDue ∧
      head.timestamp = max event.now.sinceEpoch
        (((before.base event).map SignedTreeHead.timestamp).getD 0) := by
    intro member
    rcases move.latest_cases with unchanged | ⟨due, new, published, _, dated⟩
    · rw [unchanged] at member
      exact .inl (Heads.inUse_of_base member)
    · obtain rfl := Option.some.inj (published.symm.trans member)
      exact .inr ⟨due, dated⟩
  rcases inUse with stored | latest
  · rcases move.stored_cases with unchanged | ⟨same, _⟩
    · rw [unchanged] at stored
      exact .inl (.inl stored)
    · rw [same] at stored
      exact ofLatest stored
  · exact ofLatest latest

theorem HeadMove.stored_eq_latest {event : Event} {before after : Heads}
    (move : HeadMove event before after) (notLost : event.head ≠ .lost)
    (same : before.stored = before.latest) : after.stored = after.latest := by
  have base : before.base event = before.stored := by
    rw [Heads.base, ← same, ite_self]
  cases move with
  | rest quiet => exact base.symm
  | due grows published ahead =>
      rcases published.cases_outcome with
        ⟨_, stored, latest⟩ | ⟨head, latest, _, _, ⟨_, stored⟩ | ⟨lost, _⟩⟩
      · rw [stored, latest, base]
      · rw [stored, latest]
      · exact absurd lost notLost

/-! ### Whole histories -/

namespace History

theorem last {events : List Event} {event : Event} {after : Heads}
    (history : History (events ++ [event]) after) :
    (∃ before, History events before ∧ HeadMove event before after) ∧
      ∀ head, event.servedHead? = some head → Serves event after head := by
  generalize all : events ++ [event] = whole at history
  cases history with
  | start => simp at all
  | next history move serves =>
      obtain ⟨rfl, rfl⟩ := List.append_singleton_inj.mp all
      exact ⟨⟨_, history, move⟩, serves⟩

theorem beginning {events rest : List Event} {heads : Heads}
    (history : History (events ++ rest) heads) : ∃ before, History events before := by
  induction rest using List.reverseRecOn generalizing heads with
  | nil =>
      rw [List.append_nil] at history
      exact ⟨heads, history⟩
  | append_singleton rest event ih =>
      rw [← List.append_assoc] at history
      obtain ⟨⟨before, earlier, _⟩, _⟩ := history.last
      exact ih earlier

theorem stored_le_size {events : List Event} {heads : Heads} (history : History events heads) :
    ∀ old ∈ heads.stored, old.treeSize.toNat ≤ heads.size := by
  induction history with
  | start => simp [Heads.none]
  | next history move serves ih =>
      intro old member
      rcases move.stored_cases with unchanged | ⟨latest, sized⟩
      · rw [unchanged] at member
        exact Nat.le_trans (ih old member) move.grows
      · rw [latest] at member
        exact Nat.le_of_eq (sized old member)

theorem stored_eq_latest {events : List Event} {heads : Heads} (history : History events heads)
    (noneLost : NoneLost events) : heads.stored = heads.latest := by
  induction history with
  | start => rfl
  | next history move serves ih =>
      exact move.stored_eq_latest (noneLost _ (by simp))
        (ih fun event member => noneLost event (List.mem_append_left _ member))

theorem hasRead {events : List Event} {heads : Heads} (history : History events heads)
    {head : SignedTreeHead} (inUse : heads.InUse head) : HasRead events head.timestamp := by
  induction history generalizing head with
  | start => simp [Heads.InUse, Heads.none] at inUse
  | @next events event before after history move serves ih =>
      rcases move.inUse_cases inUse with earlier | ⟨due, dated⟩
      · exact (ih earlier).append _
      · rw [dated]
        cases base : before.base event with
        | none =>
            exact ⟨event, by simp, due, max_le_iff.mpr ⟨UInt64.le_refl _, UInt64.zero_le⟩⟩
        | some old =>
            obtain ⟨past, member, pastDue, reached⟩ := ih (Heads.inUse_of_base base)
            rcases UInt64.le_total event.now.sinceEpoch past.now.sinceEpoch with earlier | later
            · exact ⟨past, by simp [member], pastDue, max_le_iff.mpr ⟨earlier, reached⟩⟩
            · exact ⟨event, by simp, due,
                max_le_iff.mpr ⟨UInt64.le_refl _, UInt64.le_trans reached later⟩⟩

theorem stored_dated {events : List Event} {heads : Heads} (history : History events heads) :
    ∀ latest ∈ heads.latest, ∀ old ∈ heads.stored, DatedAfter events latest old := by
  induction history with
  | start => simp [Heads.none]
  | @next events event before after history move serves ih =>
      have ofBase : ∀ latest ∈ before.base event, ∀ old ∈ before.stored,
          DatedAfter (events ++ [event]) latest old := by
        intro latest present old stored
        rw [Heads.base] at present
        split at present
        · obtain rfl := Option.some.inj (present.symm.trans stored)
          exact .refl _ _
        · exact (ih latest present old stored).append _
      have bounded := history.stored_le_size
      cases move with
      | rest quiet => exact ofBase
      | due grows published ahead =>
          rcases published.cases_outcome with
            ⟨_, stored, latest⟩ | ⟨head, latest, sized, _, ⟨_, stored⟩ | ⟨lost, stored⟩⟩
          · rw [stored, latest]
            exact ofBase
          · rw [stored, latest]
            rintro _ ⟨⟩ _ ⟨⟩
            exact .refl _ _
          · rw [stored, latest]
            rintro _ ⟨⟩ old stored
            -- The new head may be for the very tree of the old one: then a refresh handed it out.
            have oldBound := bounded old stored
            rcases ahead lost with smaller | ⟨refreshes, serves⟩
            · have behind := smaller old stored
              exact .inr (.inl (by omega))
            · rw [latest] at serves
              by_cases same : old.treeSize.toNat = head.treeSize.toNat
              · exact .inr (.inr ⟨same, event, by simp, refreshes, serves, lost⟩)
              · exact .inr (.inl (by omega))

theorem since_induction {before : List Event} {event : Event} {served : SignedTreeHead}
    {motive : List Event → Heads → Prop} (serves : event.servedHead? = some served)
    (here : ∀ heads, History (before ++ [event]) heads → Serves event heads served →
      motive [] heads)
    (later : ∀ since next heads after, History (before ++ event :: since) heads →
      motive since heads → HeadMove next heads after → motive (since ++ [next]) after)
    {since : List Event} {heads : Heads} (history : History (before ++ event :: since) heads) :
    motive since heads := by
  induction since using List.reverseRecOn generalizing heads with
  | nil =>
      exact here heads history (history.last.2 served serves)
  | append_singleton since next ih =>
      rw [← List.cons_append, ← List.append_assoc] at history
      obtain ⟨⟨earlier, history, move⟩, _⟩ := history.last
      exact later since next earlier heads history (ih history) move

theorem size_le {before since : List Event} {event : Event} {served : SignedTreeHead}
    {heads : Heads} (serves : event.servedHead? = some served)
    (history : History (before ++ event :: since) heads) : served.treeSize.toNat ≤ heads.size := by
  apply since_induction (motive := fun _ heads => served.treeSize.toNat ≤ heads.size) serves _ _
    history
  · intro heads _ served
    exact Nat.le_of_eq served.sized
  · intro since next heads after _ ih move
    exact Nat.le_trans ih move.grows

theorem dated_of_keeps_open {before since : List Event} {event : Event} {served : SignedTreeHead}
    {heads : Heads} (serves : event.servedHead? = some served)
    (history : History (before ++ event :: since) heads)
    (staysOpen : ∀ next ∈ since, next.reopens = false) :
    ∃ latest ∈ heads.latest, served.timestamp ≤ latest.timestamp := by
  revert staysOpen
  apply since_induction (motive := fun since heads => (∀ next ∈ since, next.reopens = false) →
    ∃ latest ∈ heads.latest, served.timestamp ≤ latest.timestamp) serves _ _ history
  · intro heads _ present _
    exact ⟨served, present.latest, UInt64.le_refl _⟩
  · intro since next heads after _ ih move staysOpen
    have dated := ih fun event member => staysOpen event (List.mem_append_left _ member)
    rw [← Heads.base_of_open (staysOpen next (by simp))] at dated
    exact move.keeps_date dated

theorem dated_of_none_lost {before since : List Event} {event : Event} {served : SignedTreeHead}
    {heads : Heads} (serves : event.servedHead? = some served)
    (history : History (before ++ event :: since) heads)
    (noneLost : NoneLost (before ++ event :: since)) :
    ∃ latest ∈ heads.latest, served.timestamp ≤ latest.timestamp := by
  revert noneLost
  apply since_induction (motive := fun since heads => NoneLost (before ++ event :: since) →
    ∃ latest ∈ heads.latest, served.timestamp ≤ latest.timestamp) serves _ _ history
  · intro heads _ present _
    exact ⟨served, present.latest, UInt64.le_refl _⟩
  · intro since next heads after history ih move noneLost
    have earlier : NoneLost (before ++ event :: since) := by
      intro past member
      rw [← List.cons_append, ← List.append_assoc] at noneLost
      exact noneLost past (List.mem_append_left _ member)
    have dated := ih earlier
    -- Memory and store agree so far, so the log goes on with this head even if it is opened again.
    have base : heads.base next = heads.latest := by
      rw [Heads.base, history.stored_eq_latest earlier, ite_self]
    rw [← base] at dated
    exact move.keeps_date dated

theorem served_hasRead {before since : List Event} {event : Event} {served : SignedTreeHead}
    {heads : Heads} (serves : event.servedHead? = some served)
    (history : History (before ++ event :: since) heads) :
    HasRead (before ++ event :: since) served.timestamp := by
  have split : before ++ event :: since = before ++ [event] ++ since := by simp
  rw [split] at history ⊢
  obtain ⟨earlier, history⟩ := history.beginning
  exact (history.hasRead (.inr (history.last.2 served serves).latest)).append since

theorem dated_of_clockForward {before since : List Event} {event : Event}
    {served : SignedTreeHead} {heads : Heads} (serves : event.servedHead? = some served)
    (history : History (before ++ event :: since) heads)
    (forward : ClockForward (before ++ event :: since)) {head : SignedTreeHead}
    (inUse : heads.InUse head) : DatedAfter (before ++ [event]) served head := by
  revert forward inUse
  apply since_induction (motive := fun since heads => ClockForward (before ++ event :: since) →
    heads.InUse head → DatedAfter (before ++ [event]) served head) serves _ _ history
  · intro heads history present _ inUse
    rcases inUse with stored | latest
    · exact history.stored_dated served present.latest head stored
    · obtain rfl := Option.some.inj (present.latest.symm.trans latest)
      exact .refl _ _
  · intro since next heads after history ih move forward inUse
    rw [← List.cons_append, ← List.append_assoc] at forward
    rcases move.inUse_cases inUse with earlier | ⟨due, dated⟩
    · exact ih forward.beginning earlier
    · have read := served_hasRead serves history
      left
      rw [dated]
      exact UInt64.le_trans (forward.reads_later due read) (max_le_iff.mp (UInt64.le_refl _)).1

/-- Of two heads that a log served, the second is of a tree that is no smaller. It is dated no
earlier either, if no head was lost or the clock went forward alone, save where a refresh had handed
out the first head, which was lost, and the log was opened again before the second. -/
theorem heads_in_order {before between after : List Event} {firstEvent secondEvent : Event}
    {first second : SignedTreeHead} {heads : Heads}
    (history : History (before ++ firstEvent :: between ++ secondEvent :: after) heads)
    (firstServes : firstEvent.servedHead? = some first)
    (secondServes : secondEvent.servedHead? = some second) :
    first.treeSize ≤ second.treeSize ∧
      (NoneLost (before ++ firstEvent :: between ++ secondEvent :: after) ∨
          ClockForward (before ++ firstEvent :: between ++ secondEvent :: after) →
        first.timestamp ≤ second.timestamp ∨
          first.treeSize = second.treeSize ∧ LostByRefresh (before ++ [firstEvent]) first ∧
            ∃ event ∈ between, event.reopens = true) := by
  have split : before ++ firstEvent :: between ++ secondEvent :: after =
      before ++ firstEvent :: (between ++ [secondEvent]) ++ after := by simp
  rw [split] at history ⊢
  obtain ⟨current, history⟩ := history.beginning
  have present : Serves secondEvent current second := by
    rw [← List.cons_append, ← List.append_assoc] at history
    exact history.last.2 second secondServes
  have grown := history.size_le firstServes
  rw [← present.sized] at grown
  refine ⟨UInt64.le_iff_toNat_le.mpr grown, ?_⟩
  intro mode
  by_cases reopened : ∃ event ∈ between, event.reopens = true
  · rcases mode with noneLost | forward
    · left
      obtain ⟨latest, member, dated⟩ := history.dated_of_none_lost firstServes
        fun event member => noneLost event (List.mem_append_left _ member)
      obtain rfl := Option.some.inj (present.latest.symm.trans member)
      exact dated
    · rcases history.dated_of_clockForward firstServes forward.beginning (.inr present.latest) with
        dated | smaller | ⟨same, lost⟩
      · exact .inl dated
      · omega
      · exact .inr ⟨UInt64.toNat_inj.mp same.symm, lost, reopened⟩
  · left
    obtain ⟨latest, member, dated⟩ := history.dated_of_keeps_open firstServes (by
      intro event member
      rw [List.mem_append, List.mem_singleton] at member
      rcases member with inside | rfl
      · exact Bool.eq_false_iff.mpr fun reopens => reopened ⟨event, inside, reopens⟩
      · exact present.staysOpen)
    obtain rfl := Option.some.inj (present.latest.symm.trans member)
    exact dated

end History

end VerifiableLog
