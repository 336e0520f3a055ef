import Tendermint.PubSub.Tracking

/-!
The loops of the pub/sub server over its maps, in any order, and its runs: what each event does
is what is due, and the maps go on holding the active subscriptions.
-/

namespace Tendermint.PubSub

open NestedMap List

variable {δ ε : Type}

section Client

variable {active : List (Active ε)}

/-- Not one of the client's subscriptions to the queries met so far. -/
def spared (clientID : String) (done : List String) (one : Active ε) : Bool :=
  !(one.clientID == clientID && decide (one.query.string ∈ done))

theorem spared_iff {clientID : String} {done : List String} {one : Active ε} :
    spared clientID done one = true ↔ (one.clientID = clientID → one.query.string ∉ done) := by
  simp [spared, imp_iff_not_or]

/-- The loop over the keys removes the subscriptions of the client at their queries. The
induction is on the keys to come; an id is met after its query, so there is nothing left of the
subscription under it. -/
theorem remove_client_tracks (clientID : String) (reason : Option Reason) (rest : List String) :
    ∀ (done seen : List String) (state : State δ ε),
      Tracks state (active.filter (spared clientID done)) → (done ++ rest).Nodup →
      (∀ one ∈ active, one.clientID = clientID →
        [one.query.string, one.id].Sublist (done ++ rest)) →
      (∀ one ∈ active, spared clientID done one = true → one.id ∉ seen) →
      Tracks (State.removeClientFrom clientID reason rest seen state)
        (active.filter (spared clientID (done ++ rest))) ∧
      Did state (State.removeClientFrom clientID reason rest seen state) (fun effect =>
        ∃ one ∈ active, spared clientID done one = true ∧
          spared clientID (done ++ rest) one = false ∧ effect = .closed one.id) ∧
      (State.removeClientFrom clientID reason rest seen state).running = state.running := by
  induction rest with
  | nil =>
    intro done seen state tracks _ _ _
    rw [append_nil]
    refine ⟨tracks, Did.none ?_ rfl, rfl⟩
    rintro effect ⟨one, _, kept, gone, _⟩
    rw [kept] at gone
    cases gone
  | cons key rest ih =>
    intro done seen state tracks nodup ordered unseen
    have shift : done ++ key :: rest = (done ++ [key]) ++ rest := by simp
    unfold State.removeClientFrom
    cases found : find state.subscriptions key clientID with
    | none =>
      -- the client has no active subscription under this key
      have same : ∀ one ∈ active,
          spared clientID done one = spared clientID (done ++ [key]) one := by
        intro one member
        rw [Bool.eq_iff_iff, spared_iff, spared_iff]
        refine ⟨fun kept client => ?_, fun kept client inside => kept client
          (mem_append_left _ inside)⟩
        rw [mem_append, mem_singleton, not_or]
        refine ⟨kept client, fun named => ?_⟩
        have present := tracks.find_query (mem_filter.mpr ⟨member, spared_iff.mpr kept⟩)
        rw [named, client, found] at present
        cases present
      rw [shift]
      rw [shift] at nodup ordered
      rw [filter_congr same] at tracks
      obtain ⟨after, did, running⟩ := ih (done ++ [key]) seen state tracks nodup ordered
        (fun one member kept => unseen one member ((same one member).trans kept))
      refine ⟨after, did.congr fun effect => ?_, running⟩
      refine exists_congr fun one => and_congr_right fun member => ?_
      rw [same one member]
    | some id =>
      dsimp only
      obtain ⟨one, kept, client, named, under⟩ := (tracks.entries _ _ _).mp found
      obtain ⟨member, spares⟩ := mem_filter.mp kept
      have query : one.query.string = key := by
        rcases under with under | under
        · exact under
        · exfalso
          have ordered := ordered one member client
          rw [under] at ordered
          exact spared_iff.mp spares client (mem_before nodup ordered)
      subst named
      subst query
      subst client
      rw [if_neg (unseen one member spares)]
      have spent : ∀ other ∈ active,
          (spared one.clientID done other && other.id != one.id) =
            spared one.clientID (done ++ [one.query.string]) other := by
        intro other otherMember
        rw [Bool.eq_iff_iff, Bool.and_eq_true, bne_iff_ne, spared_iff, spared_iff]
        constructor
        · rintro ⟨otherKept, different⟩ same
          rw [mem_append, mem_singleton, not_or]
          refine ⟨otherKept same, fun query => different ?_⟩
          exact tracks.pairs other (mem_filter.mpr ⟨otherMember, spared_iff.mpr otherKept⟩)
            one kept query same
        · intro otherKept
          refine ⟨fun same inside => otherKept same (mem_append_left _ inside), fun same => ?_⟩
          have otherSpared : spared one.clientID done other = true :=
            spared_iff.mpr fun same inside => otherKept same (mem_append_left _ inside)
          cases tracks.eq_of_id (mem_filter.mpr ⟨otherMember, otherSpared⟩) kept same
          exact otherKept rfl (mem_append_right _ (mem_singleton_self _))
      obtain ⟨removed, log, running, _⟩ := remove_tracks tracks kept reason
      rw [filter_filter] at removed
      rw [filter_congr (fun other otherMember =>
        (Bool.and_comm _ _).trans (spent other otherMember))] at removed
      rw [shift]
      rw [shift] at nodup ordered
      obtain ⟨after, did, still⟩ := ih (done ++ [one.query.string]) (one.id :: seen) _ removed nodup
        ordered (by
          intro other otherMember otherKept
          rw [← spent other otherMember, Bool.and_eq_true, bne_iff_ne] at otherKept
          rw [mem_cons, not_or]
          exact ⟨otherKept.2, unseen other otherMember otherKept.1⟩)
      refine ⟨after, (Did.one log).trans did ?_ ?_, still.trans running⟩
      · rintro effect rfl ⟨other, otherMember, otherKept, _, again⟩
        rw [← spent other otherMember, Bool.and_eq_true, bne_iff_ne] at otherKept
        exact otherKept.2 (Effect.closed.inj again).symm
      · intro effect
        constructor
        · rintro ⟨other, otherMember, otherKept, gone, rfl⟩
          by_cases same : other.id = one.id
          · exact Or.inl (congrArg Effect.closed same)
          · refine Or.inr ⟨other, otherMember, ?_, gone, rfl⟩
            rw [← spent other otherMember, Bool.and_eq_true, bne_iff_ne]
            exact ⟨otherKept, same⟩
        · rintro (rfl | ⟨other, otherMember, otherKept, gone, rfl⟩)
          · refine ⟨one, member, spares, ?_, rfl⟩
            rw [Bool.eq_false_iff, Ne, spared_iff]
            intro kept
            exact kept rfl (mem_append_left _ (mem_append_right _ (mem_singleton_self _)))
          · rw [← spent other otherMember, Bool.and_eq_true] at otherKept
            exact ⟨other, otherMember, otherKept.1, gone, rfl⟩

end Client

section Publishing

/-- The middle of `send`: the message has been offered to the subscriptions handled so far, and
of these the ones without room are gone. -/
structure Sent (state : State δ ε) (active : List (Active ε)) (data : δ) (events : List ε)
    (handled : Active ε → Bool) (now : State δ ε) : Prop where
  tracks : Tracks now (active.filter fun one => !(handled one && one.overflows state events))
  did : Did state now fun effect => ∃ one ∈ active, handled one = true ∧
    ((one.matched events = true ∧ effect = .offered ⟨one.id, data, events⟩) ∨
      (one.overflows state events = true ∧ effect = .closed one.id))
  fresh : ∀ one ∈ active, handled one = false → now.memory one.id = state.memory one.id
  running : now.running = state.running

variable {state now : State δ ε} {active : List (Active ε)} {data : δ} {events : List ε}
  {handled : Active ε → Bool}

variable {one : Active ε}

theorem Active.matched_of_overflows (full : one.overflows state events = true) :
    one.matched events = true :=
  ((Bool.and_eq_true _ _).mp full).1

theorem Sent.extend {more : Active ε → Bool} (sent : Sent state active data events handled now)
    (grows : ∀ one ∈ active, handled one = true → more one = true)
    (agrees : ∀ one ∈ active, one.matched events = true → handled one = more one) :
    Sent state active data events more now where
  tracks := by
    have filters : ∀ one ∈ active, (!(handled one && one.overflows state events)) =
        !(more one && one.overflows state events) := by
      intro one member
      cases full : one.overflows state events with
      | false => rw [Bool.and_false, Bool.and_false]
      | true => rw [agrees one member (Active.matched_of_overflows full)]
    rw [← filter_congr filters]
    exact sent.tracks
  did := by
    refine sent.did.congr fun effect => ?_
    refine exists_congr fun one => and_congr_right fun member => and_congr_left fun what => ?_
    have hit : one.matched events = true := by
      rcases what with ⟨hit, _⟩ | ⟨full, _⟩
      · exact hit
      · exact Active.matched_of_overflows full
    rw [agrees one member hit]
  fresh := by
    intro one member unhandled
    refine sent.fresh one member (Bool.eq_false_iff.mpr fun done => ?_)
    rw [grows one member done] at unhandled
    cases unhandled
  running := sent.running

theorem Sent.congr {same : Active ε → Bool} (sent : Sent state active data events handled now)
    (iff : ∀ one ∈ active, handled one = same one) : Sent state active data events same now :=
  sent.extend (fun one member done => (iff one member).symm.trans done)
    (fun one member _ => iff one member)

theorem unhandled_mem (state : State δ ε) (events : List ε) (member : one ∈ active)
    (unhandled : handled one = false) :
    one ∈ active.filter fun one => !(handled one && one.overflows state events) := by
  rw [mem_filter, unhandled]
  exact ⟨member, rfl⟩

theorem Sent.handle (base : Tracks state active) (sent : Sent state active data events handled now)
    (member : one ∈ active) (unhandled : handled one = false) (matched : one.matched events = true)
    {next : State δ ε}
    (tracks : Tracks next (active.filter fun other =>
      !((handled other || other.id == one.id) && other.overflows state events)))
    (did : Did now next fun effect => effect = .offered ⟨one.id, data, events⟩ ∨
      (one.overflows state events = true ∧ effect = .closed one.id))
    (others : ∀ id, id ≠ one.id → next.memory id = now.memory id)
    (running : next.running = now.running) :
    Sent state active data events (fun other => handled other || other.id == one.id) next where
  tracks := tracks
  did := by
    have new : ∀ other ∈ active, handled other = true → other.id ≠ one.id := by
      intro other otherMember done same
      cases base.eq_of_id otherMember member same
      rw [unhandled] at done
      cases done
    refine sent.did.trans did ?_ ?_
    · rintro effect ⟨other, otherMember, done, ⟨_, rfl⟩ | ⟨_, rfl⟩⟩ (again | ⟨_, again⟩)
      · exact new other otherMember done (Message.mk.inj (Effect.offered.inj again)).1
      · cases again
      · cases again
      · exact new other otherMember done (Effect.closed.inj again)
    · intro effect
      constructor
      · rintro ⟨other, otherMember, done, what⟩
        rw [Bool.or_eq_true, beq_iff_eq] at done
        rcases done with done | same
        · exact Or.inl ⟨other, otherMember, done, what⟩
        · cases base.eq_of_id otherMember member same
          exact Or.inr (what.imp_left And.right)
      · rintro (⟨other, otherMember, done, what⟩ | what)
        · exact ⟨other, otherMember, by rw [done, Bool.true_or], what⟩
        · refine ⟨one, member, by rw [beq_self_eq_true, Bool.or_true], ?_⟩
          exact what.imp_left fun offered => ⟨matched, offered⟩
  fresh := by
    intro other otherMember ahead
    rw [Bool.or_eq_false_iff, beq_eq_false_iff_ne] at ahead
    rw [others other.id ahead.2]
    exact sent.fresh other otherMember ahead.1
  running := running.trans sent.running

theorem Sent.handled_without_overflow (base : Tracks state active) (member : one ∈ active)
    (room : one.overflows state events = false) :
    active.filter (fun other =>
      !((handled other || other.id == one.id) && other.overflows state events)) =
    active.filter fun other => !(handled other && other.overflows state events) := by
  refine filter_congr fun other otherMember => ?_
  by_cases same : other.id = one.id
  · cases base.eq_of_id otherMember member same
    rw [room, Bool.and_false, Bool.and_false]
  · rw [beq_false_of_ne same, Bool.or_false]

theorem offer_sent (base : Tracks state active) (sent : Sent state active data events handled now)
    (key client : String)
    (matched : ∀ one ∈ active, one.query.string = key → one.matched events = true)
    (notID : ∀ one ∈ active, one.id ≠ key)
    (ahead : ∀ one ∈ active, one.query.string = key → one.clientID = client → handled one = false) :
    Sent state active data events
      (fun one => handled one || (one.query.string == key && one.clientID == client))
      (now.offer key client data events) := by
  unfold State.offer
  cases found : find now.subscriptions key client with
  | none =>
    refine sent.congr fun one member => ?_
    by_cases here : one.query.string = key ∧ one.clientID = client
    · exfalso
      have present := sent.tracks.find_query
        (unhandled_mem state events member (ahead one member here.1 here.2))
      rw [here.1, here.2, found] at present
      cases present
    · have missed : (one.query.string == key && one.clientID == client) = false := by
        rw [Bool.eq_false_iff, Ne, Bool.and_eq_true, beq_iff_eq, beq_iff_eq]
        exact here
      rw [missed, Bool.or_false]
  | some id =>
    dsimp only
    obtain ⟨one, kept, same, named, query⟩ := sent.tracks.found_query
      (fun one kept => notID one (mem_filter.mp kept).1) found
    have member := (mem_filter.mp kept).1
    have unhandled := ahead one member query same
    have hit := matched one member query
    subst named
    have memory := sent.fresh one member unhandled
    have here : ∀ other ∈ active, (handled other || other.id == one.id) =
        (handled other || (other.query.string == key && other.clientID == client)) := by
      intro other otherMember
      congr 1
      rw [Bool.eq_iff_iff, Bool.and_eq_true, beq_iff_eq, beq_iff_eq, beq_iff_eq]
      constructor
      · intro equal
        cases base.eq_of_id otherMember member equal
        exact ⟨query, same⟩
      · rintro ⟨otherQuery, otherSame⟩
        exact base.pairs other otherMember one member (otherQuery.trans query.symm)
          (otherSame.trans same.symm)
    refine Sent.congr ?_ here
    rw [memory]
    by_cases unbuffered : (state.memory one.id).capacity = 0
    · rw [if_pos unbuffered]
      have room : one.overflows state events = false := by simp [Active.overflows, unbuffered]
      refine sent.handle base member unhandled hit ?_ ?_ (fun _ _ => rfl) rfl
      · rw [Sent.handled_without_overflow base member room]
        exact sent.tracks.of_log _
      · refine Did.congr (Did.one rfl) fun effect => ?_
        rw [room]
        exact ⟨Or.inl, fun either => either.resolve_right fun wrong => Bool.noConfusion wrong.1⟩
    rw [if_neg unbuffered]
    by_cases space : (state.memory one.id).out.length < (state.memory one.id).capacity
    · rw [if_pos space]
      have room : one.overflows state events = false := by
        rw [Active.overflows, Bool.and_eq_false_iff]
        exact Or.inr (decide_eq_false fun full => absurd full.2 (Nat.not_le.mpr space))
      refine sent.handle base member unhandled hit ?_ ?_
        (fun id other => Function.update_of_ne other _ _) rfl
      · rw [Sent.handled_without_overflow base member room, ← memory]
        exact (sent.tracks.of_log _).of_out one.id _
      · refine Did.congr (Did.one rfl) fun effect => ?_
        rw [room]
        exact ⟨Or.inl, fun either => either.resolve_right fun wrong => Bool.noConfusion wrong.1⟩
    · rw [if_neg space]
      have full : one.overflows state events = true := by
        rw [Active.overflows, Bool.and_eq_true]
        exact ⟨hit, decide_eq_true ⟨unbuffered, Nat.not_lt.mp space⟩⟩
      subst query
      subst same
      obtain ⟨removed, log, running, others⟩ := remove_tracks
        (sent.tracks.of_log ⟨one.id, data, events⟩) kept (some .outOfCapacity)
      refine sent.handle base member unhandled hit ?_ ?_ others running
      · rw [filter_filter] at removed
        rw [← filter_congr fun other otherMember => ?_]
        · exact removed
        · by_cases equal : other.id = one.id
          · cases base.eq_of_id otherMember member equal
            simp [full]
          · rw [bne, beq_false_of_ne equal, Bool.or_false, Bool.not_false, Bool.true_and]
      · refine (Did.one rfl : Did now { now with
          log := now.log ++ [.offered ⟨one.id, data, events⟩] } _).trans (Did.one log) ?_ ?_
        · rintro effect rfl again
          cases again
        · intro effect
          rw [full]
          simp

variable {key : String}

theorem offers_sent (base : Tracks state active)
    (matched : ∀ one ∈ active, one.query.string = key → one.matched events = true)
    (notID : ∀ one ∈ active, one.id ≠ key) {clients : List String} :
    ∀ (handled : Active ε → Bool) (now : State δ ε), clients.Nodup →
      Sent state active data events handled now →
      (∀ one ∈ active, one.query.string = key → one.clientID ∈ clients → handled one = false) →
      Sent state active data events
        (fun one => handled one || (one.query.string == key && decide (one.clientID ∈ clients)))
        (clients.foldl (fun now client => now.offer key client data events) now) := by
  induction clients with
  | nil =>
    intro handled now _ sent _
    refine sent.congr fun one _ => ?_
    simp
  | cons client rest ih =>
    intro handled now nodup sent ahead
    rw [nodup_cons] at nodup
    have first := offer_sent base sent key client matched notID
      (fun one member query same => ahead one member query (same ▸ mem_cons_self))
    refine (ih _ _ nodup.2 first ?_).congr fun one member => ?_
    · intro one member query later
      rw [ahead one member query (mem_cons_of_mem _ later), Bool.false_or, Bool.and_eq_false_iff]
      refine Or.inr (beq_false_of_ne ?_)
      rintro rfl
      exact nodup.1 later
    · rw [Bool.or_assoc, ← Bool.and_or_distrib_left]
      rw [Bool.eq_iff_iff]
      simp

theorem columns_of_lookup {table : Table String String String}
    {row : AList fun _ : String => String} (present : table.lookup key = some row) :
    columns table key = row.keys := by
  rw [columns, present, Option.getD_some]

/-- The outer loop of `send`. When it ends, early or not, every subscription that matches has
been handled. -/
theorem send_sent (base : Tracks state active) (clients : String → Iteration String)
    (rest : List String) :
    ∀ (done : List String) (now : State δ ε), (done ++ rest).Nodup →
      (∀ one ∈ active, one.query.string ∈ done ++ rest) →
      (∀ one ∈ active, ∀ other ∈ active, one.failed events = true →
        other.matched events = true →
          [other.query.string, one.query.string].Sublist (done ++ rest)) →
      Sent state active data events (fun one => decide (one.query.string ∈ done)) now →
      ∃ handled, Sent state active data events handled
          (State.sendFrom clients data events rest now).1 ∧
        ∀ one ∈ active, one.matched events = true → handled one = true := by
  induction rest with
  | nil =>
    intro done now _ listed _ sent
    refine ⟨_, sent, fun one member _ => decide_eq_true ?_⟩
    have inside := listed one member
    rw [append_nil] at inside
    exact inside
  | cons key rest ih =>
    intro done now nodup listed ordered sent
    have shift : done ++ key :: rest = (done ++ [key]) ++ rest := by simp
    have new : key ∉ done := fun inside =>
      (disjoint_of_nodup_append nodup) inside mem_cons_self
    have waiting : ∀ one ∈ active, one.query.string = key →
        one ∈ active.filter fun one =>
          !(decide (one.query.string ∈ done) && one.overflows state events) := by
      intro one member query
      exact unhandled_mem state events member (decide_eq_false (query ▸ new))
    -- the loop goes on with this key behind it once its subscriptions are handled
    have onward : ∀ after, Sent state active data events
        (fun one => decide (one.query.string ∈ done) || (one.query.string == key)) after →
        ∃ handled, Sent state active data events handled
            (State.sendFrom clients data events rest after).1 ∧
          ∀ one ∈ active, one.matched events = true → handled one = true := by
      intro after sent
      rw [shift] at nodup listed ordered
      refine ih (done ++ [key]) after nodup listed ordered (sent.congr fun one _ => ?_)
      rw [Bool.eq_iff_iff]
      simp
    have skip : (∀ one ∈ active, one.query.string ≠ key) →
        Sent state active data events
          (fun one => decide (one.query.string ∈ done) || (one.query.string == key)) now := by
      intro absent
      refine sent.congr fun one member => ?_
      rw [beq_false_of_ne (absent one member), Bool.or_false]
    unfold State.sendFrom
    split
    case h_2 missing =>
      refine onward now (skip fun one member query => ?_)
      obtain ⟨row, present⟩ := (mem_iff_lookup _ _).mp
        (mem_of_find (sent.tracks.find_query (waiting one member query)))
      obtain ⟨ref, stored, _⟩ := sent.tracks.query_stored (waiting one member query)
      rw [query] at present stored
      exact missing row ref present stored
    case h_1 row ref present stored =>
    split
    · rename_i double
      refine onward now (skip fun one member query => ?_)
      have found : find now.subscriptions key key = some key := by
        rw [find, present]
        exact double
      obtain ⟨other, kept, _, named, _⟩ := (sent.tracks.entries _ _ _).mp found
      exact sent.tracks.apart other kept one (waiting one member query) (named.trans query.symm)
    obtain ⟨first, firstKept, firstQuery, same⟩ := sent.tracks.subscriber_of_stored stored
    have queries : ∀ one ∈ active, one.query.string = key → one.query = ref.q := by
      intro one member query
      exact (sent.tracks.stored key ref stored).2 one (waiting one member query) query
    have firstMember := (mem_filter.mp firstKept).1
    split
    · rename_i text failed
      refine ⟨_, sent, fun one member hit => decide_eq_true ?_⟩
      have fails : first.failed events = true := by
        rw [Active.failed, same, failed]
      have before := ordered first firstMember one member fails hit
      rw [firstQuery] at before
      exact mem_before nodup before
    · rename_i missed
      refine onward now (sent.extend ?_ ?_)
      · intro one _ done
        rw [done, Bool.true_or]
      · intro one member hit
        have other : one.query.string ≠ key := by
          intro query
          rw [Active.matched, queries one member query, missed] at hit
          cases hit
        rw [beq_false_of_ne other, Bool.or_false]
    · rename_i hit
      have matched : ∀ one ∈ active, one.query.string = key → one.matched events = true := by
        intro one member query
        rw [Active.matched, queries one member query, hit]
      have notID : ∀ one ∈ active, one.id ≠ key := by
        intro one member named
        exact base.apart one member first firstMember (named.trans firstQuery.symm)
      have perm := (clients key).perm row.keys
      have all := offers_sent base matched notID _ now
        (perm.nodup_iff.mpr row.keys_nodup) sent
        (fun one member query _ => decide_eq_false (query ▸ new))
      refine onward _ (all.congr fun one member => ?_)
      congr 1
      by_cases query : one.query.string = key
      · rw [query, beq_self_eq_true, Bool.true_and]
        refine decide_eq_true (perm.mem_iff.mpr ?_)
        rw [← columns_of_lookup present, mem_columns, ← query]
        exact ⟨one.id, sent.tracks.find_query (waiting one member query)⟩
      · rw [beq_false_of_ne query, Bool.false_and]

end Publishing

section Steps

variable {state : State δ ε} {active : List (Active ε)}

variable {event : Event δ ε} {order : Order} {clientID : String} {keys : List String}

theorem closed_due (tracks : Tracks state active) {kept : Active ε → Bool}
    (remain : following state active event = active.filter kept) (id : String) :
    Due state active event (.closed id) ↔ ∃ one ∈ active, kept one = false ∧ one.id = id := by
  constructor
  · rintro ⟨one, member, named, others⟩
    refine ⟨one, member, Bool.eq_false_iff.mpr fun stays => ?_, named⟩
    exact others one (remain ▸ mem_filter.mpr ⟨member, stays⟩) named
  · rintro ⟨one, member, gone, rfl⟩
    refine ⟨one, member, rfl, fun other stays same => ?_⟩
    rw [remain] at stays
    obtain ⟨otherMember, keeps⟩ := mem_filter.mp stays
    rw [tracks.eq_of_id otherMember member same, gone] at keeps
    cases keeps

theorem nothing_due (remain : active ⊆ following state active event)
    (silent : ∀ data events order, event ≠ .command (.pub data events) order) :
    ∀ effect, ¬ Due state active event effect := by
  intro effect due
  cases effect with
  | offered message =>
    obtain ⟨data, events, order, same, _⟩ := due
    exact silent data events order same
  | closed id =>
    obtain ⟨one, member, named, others⟩ := due
    exact others one (remain member) named

theorem unsub_step (tracks : Tracks state active) {query : Query ε} {id : String}
    (meets : Meets state active (.command (.unsub clientID query id) order)) :
    Tracks (state.process order (.unsub clientID query id))
      (following state active (.command (.unsub clientID query id) order)) ∧
    Did state (state.process order (.unsub clientID query id))
      (Due state active (.command (.unsub clientID query id) order)) := by
  obtain ⟨notID, own⟩ := meets
  rw [State.process]
  by_cases present : ∃ one ∈ active, one.clientID = clientID ∧ one.query.string = query.string
  · obtain ⟨one, member, rfl, named⟩ := present
    obtain ⟨rfl, _⟩ := own one member rfl named
    obtain ⟨removed, log, _⟩ := remove_tracks tracks member (some .unsubscribed)
    rw [named] at removed log
    have same : ∀ other ∈ active, (other.id != one.id) =
        !(other.clientID == one.clientID && other.query.string == query.string) := by
      intro other otherMember
      rw [Bool.eq_iff_iff, bne_iff_ne, Bool.not_eq_true', Bool.and_eq_false_iff,
        beq_eq_false_iff_ne, beq_eq_false_iff_ne, ← not_and_or]
      refine not_congr ⟨fun equal => ?_, fun both => ?_⟩
      · rw [tracks.eq_of_id otherMember member equal]
        exact ⟨rfl, named⟩
      · exact tracks.pairs other otherMember one member (both.2.trans named.symm) both.1
    have remain : following state active (.command (.unsub one.clientID query one.id) order) =
        active.filter fun other => other.id != one.id := (filter_congr same).symm
    refine ⟨remain ▸ removed, (Did.one log).congr fun effect => ?_⟩
    cases effect with
    | offered message =>
      refine iff_of_false (fun wrong => by cases wrong) ?_
      rintro ⟨_, _, _, wrong, _⟩
      cases wrong
    | closed gone =>
      rw [closed_due tracks remain]
      constructor
      · intro equal
        cases equal
        exact ⟨one, member, bne_self_eq_false one.id, rfl⟩
      · rintro ⟨other, _, equal, rfl⟩
        rw [bne_eq_false_iff_eq.mp equal]
  · have absent : find state.subscriptions query.string clientID = none := by
      cases found : find state.subscriptions query.string clientID with
      | none => rfl
      | some other =>
        obtain ⟨one, member, same, _, named⟩ := tracks.found_query notID found
        exact absurd ⟨one, member, same, named⟩ present
    have stays : following state active (.command (.unsub clientID query id) order) = active := by
      refine filter_eq_self.mpr fun one member => ?_
      rw [Bool.not_eq_true', Bool.eq_false_iff, Ne, Bool.and_eq_true, beq_iff_eq, beq_iff_eq]
      exact fun both => present ⟨one, member, both⟩
    rw [stays, State.remove, absent]
    exact ⟨tracks, Did.none (nothing_due (fun _ member => stays.symm ▸ member) fun _ _ _ wrong => by
      cases wrong) rfl⟩

theorem unsub_all_step (tracks : Tracks state active)
    (meets : Meets state active (.command (.unsubAll clientID) order)) :
    Tracks (state.process order (.unsubAll clientID))
      (following state active (.command (.unsubAll clientID) order)) ∧
    Did state (state.process order (.unsubAll clientID))
      (Due state active (.command (.unsubAll clientID) order)) := by
  have perm := order.keys.perm state.subscriptions.keys
  have fresh : active.filter (spared clientID []) = active :=
    filter_eq_self.mpr fun one _ => spared_iff.mpr fun _ => not_mem_nil
  have gone : ∀ one ∈ active, spared clientID (order.keys.walk state.subscriptions.keys) one =
      (one.clientID != clientID) := by
    intro one member
    have listed : one.query.string ∈ order.keys.walk state.subscriptions.keys :=
      perm.mem_iff.mpr (AList.mem_keys.mp (mem_of_find (tracks.find_query member)))
    rw [Bool.eq_iff_iff, spared_iff, bne_iff_ne]
    exact ⟨fun kept same => kept same listed, fun other same => absurd same other⟩
  have remain : following state active (.command (.unsubAll clientID) order) =
      active.filter (spared clientID (order.keys.walk state.subscriptions.keys)) :=
    (filter_congr gone).symm
  obtain ⟨after, did, _⟩ := remove_client_tracks clientID (some .unsubscribed)
    (order.keys.walk state.subscriptions.keys) [] [] state (fresh.symm ▸ tracks)
    (perm.nodup_iff.mpr state.subscriptions.keys_nodup)
    (fun one member same => (meets one member same).1) (fun _ _ _ => not_mem_nil)
  refine ⟨remain ▸ after, did.congr fun effect => ?_⟩
  cases effect with
  | offered message =>
    constructor
    · rintro ⟨_, _, _, _, wrong⟩
      cases wrong
    · rintro ⟨_, _, _, wrong, _⟩
      cases wrong
  | closed id =>
    rw [closed_due tracks remain]
    constructor
    · rintro ⟨one, member, _, taken, same⟩
      exact ⟨one, member, taken, (Effect.closed.inj same).symm⟩
    · rintro ⟨one, member, taken, rfl⟩
      exact ⟨one, member, spared_iff.mpr fun _ => not_mem_nil, taken, rfl⟩

variable {events : List ε} {data : δ} {reason : Option Reason} {clients : String → Iteration String}

theorem pub_step (tracks : Tracks state active)
    (meets : Meets state active (.command (.pub data events) order)) :
    Tracks (state.process order (.pub data events))
      (following state active (.command (.pub data events) order)) ∧
    Did state (state.process order (.pub data events))
      (Due state active (.command (.pub data events) order)) := by
  have perm := order.keys.perm state.subscriptions.keys
  have fresh : Sent state active data events (fun one => decide (one.query.string ∈ [])) state := by
    refine ⟨?_, Did.none ?_ rfl, fun _ _ _ => rfl, rfl⟩
    · rw [filter_eq_self.mpr fun one _ => by simp]
      exact tracks
    · rintro effect ⟨one, _, wrong, _⟩
      exact absurd (of_decide_eq_true wrong) not_mem_nil
  obtain ⟨handled, sent, all⟩ := send_sent tracks order.clients
    (order.keys.walk state.subscriptions.keys) [] state
    (perm.nodup_iff.mpr state.subscriptions.keys_nodup)
    (fun one member => perm.mem_iff.mpr
      (AList.mem_keys.mp (mem_of_find (tracks.find_query member)))) meets.1 fresh
  have remain : following state active (.command (.pub data events) order) =
      active.filter fun one => !(handled one && one.overflows state events) := by
    refine filter_congr fun one member => ?_
    cases full : one.overflows state events with
    | false => rw [Bool.and_false]
    | true => rw [all one member (Active.matched_of_overflows full), Bool.true_and]
  refine ⟨remain ▸ sent.tracks, sent.did.congr fun effect => ?_⟩
  cases effect with
  | offered message =>
    constructor
    · rintro ⟨one, member, _, ⟨hit, same⟩ | ⟨_, wrong⟩⟩
      · exact ⟨data, events, order, rfl, one, member, hit, Effect.offered.inj same⟩
      · cases wrong
    · rintro ⟨_, _, _, same, one, member, hit, rfl⟩
      cases same
      exact ⟨one, member, all one member hit, Or.inl ⟨hit, rfl⟩⟩
  | closed id =>
    rw [closed_due tracks remain]
    constructor
    · rintro ⟨one, member, done, ⟨_, wrong⟩ | ⟨full, same⟩⟩
      · cases wrong
      · refine ⟨one, member, ?_, (Effect.closed.inj same).symm⟩
        rw [done, full]
        rfl
    · rintro ⟨one, member, gone, rfl⟩
      rw [Bool.not_eq_false', Bool.and_eq_true] at gone
      exact ⟨one, member, gone.1, Or.inr ⟨gone.2, rfl⟩⟩

theorem remove_client_idle {seen : List String}
    (missing : ∀ key, find state.subscriptions key clientID = none) :
    State.removeClientFrom clientID reason keys seen state = state := by
  induction keys with
  | nil => rfl
  | cons key rest ih =>
    unfold State.removeClientFrom
    rw [missing key]
    exact ih

theorem remove_all_idle (missing : ∀ key, find state.subscriptions key key = none) :
    State.removeAllFrom clients reason keys state = state := by
  induction keys with
  | nil => rfl
  | cons key rest ih =>
    unfold State.removeAllFrom
    rw [missing key]
    exact ih

theorem send_idle (missing : ∀ key, state.queries.lookup key = none) :
    (State.sendFrom clients data events keys state).1 = state := by
  induction keys with
  | nil => rfl
  | cons key rest ih =>
    unfold State.sendFrom
    rw [missing key]
    cases state.subscriptions.lookup key <;> exact ih

theorem Tracks.find_none (tracks : Tracks state []) (key client : String) :
    find state.subscriptions key client = none := by
  cases found : find state.subscriptions key client with
  | none => rfl
  | some id =>
    obtain ⟨one, member, _⟩ := (tracks.entries _ _ _).mp found
    cases member

theorem Tracks.lookup_none (tracks : Tracks state []) (key : String) :
    state.queries.lookup key = none := by
  cases stored : state.queries.lookup key with
  | none => rfl
  | some ref =>
    obtain ⟨one, member, _⟩ := tracks.subscriber_of_stored stored
    cases member

theorem step_tracks (tracks : Tracks state active) (running : state.running = true)
    (meets : Meets state active event) :
    Tracks (state.step event) (following state active event) ∧
      Did state (state.step event) (Due state active event) := by
  cases event with
  | receive id =>
    refine ⟨tracks.of_out id _, Did.none (nothing_due (fun _ member => member) ?_) rfl⟩
    intro _ _ _ wrong
    cases wrong
  | command cmd order =>
    rw [State.step, if_pos running]
    cases cmd with
    | sub clientID query id capacity =>
      refine ⟨sub_tracks tracks meets, Did.none (nothing_due (subset_cons_self _ _) ?_) rfl⟩
      intro _ _ _ wrong
      cases wrong
    | unsub clientID query id => exact unsub_step tracks meets
    | unsubAll clientID => exact unsub_all_step tracks meets
    | pub data events => exact pub_step tracks meets
    | shutdown =>
      cases (show active = [] from meets)
      rw [State.process, remove_all_idle fun key => tracks.find_none key key]
      refine ⟨⟨tracks.ids, tracks.pairs, tracks.apart, tracks.entries, tracks.refs, tracks.stored,
        tracks.opened, tracks.once, tracks.left⟩, Did.none ?_ rfl⟩
      intro effect due
      cases effect with
      | offered message =>
        obtain ⟨_, _, _, wrong, _⟩ := due
        cases wrong
      | closed id =>
        obtain ⟨one, member, _⟩ := due
        cases member

theorem following_ne_nil (meets : Meets state active event) (some : active ≠ []) :
    following state active event ≠ [] := by
  obtain ⟨one, member⟩ := exists_mem_of_ne_nil active some
  cases event with
  | receive id => exact some
  | command cmd order =>
  cases cmd with
  | sub clientID query id capacity => exact cons_ne_nil _ _
  | unsub clientID query id =>
    intro empty
    have gone := filter_eq_nil_iff.mp empty
    have taken : ∀ one ∈ active, one.clientID = clientID ∧ one.query.string = query.string := by
      intro one member
      have both := gone one member
      rw [Bool.not_eq_true', Bool.not_eq_false, Bool.and_eq_true, beq_iff_eq, beq_iff_eq] at both
      exact both
    obtain ⟨_, other, otherMember, different⟩ :=
      meets.2 one member (taken one member).1 (taken one member).2
    exact different (meets.2 other otherMember (taken other otherMember).1
      (taken other otherMember).2).1
  | unsubAll clientID =>
    by_cases same : one.clientID = clientID
    · obtain ⟨_, other, otherMember, different⟩ := meets one member same
      exact ne_nil_of_mem (mem_filter.mpr ⟨otherMember, bne_iff_ne.mpr different⟩)
    · exact ne_nil_of_mem (mem_filter.mpr ⟨member, bne_iff_ne.mpr same⟩)
  | pub data events =>
    cases full : one.overflows state events with
    | false =>
      refine ne_nil_of_mem (mem_filter.mpr ⟨member, ?_⟩)
      rw [full]
      rfl
    | true =>
      obtain ⟨other, otherMember, room⟩ := meets.2 ⟨one, member, full⟩
      refine ne_nil_of_mem (mem_filter.mpr ⟨otherMember, ?_⟩)
      rw [room]
      rfl
  | shutdown => exact absurd meets some

theorem step_idle (tracks : Tracks state []) (last : following state [] event = []) :
    (state.step event).subscriptions = state.subscriptions ∧
      (state.step event).queries = state.queries := by
  cases event with
  | receive id => exact ⟨rfl, rfl⟩
  | command cmd order =>
  rw [State.step]
  split
  case isFalse => exact ⟨rfl, rfl⟩
  case isTrue =>
  cases cmd with
  | sub clientID query id capacity => cases last
  | unsub clientID query id =>
    rw [State.process, State.remove, tracks.find_none]
    exact ⟨rfl, rfl⟩
  | unsubAll clientID =>
    rw [State.process, remove_client_idle fun key => tracks.find_none key clientID]
    exact ⟨rfl, rfl⟩
  | pub data events =>
    rw [State.process, send_idle tracks.lookup_none]
    exact ⟨rfl, rfl⟩
  | shutdown =>
    rw [State.process, remove_all_idle fun key => tracks.find_none key key]
    exact ⟨rfl, rfl⟩

end Steps

theorem start_tracks : Tracks (State.start : State δ ε) [] where
  ids := nodup_nil
  pairs := by
    intro one member
    cases member
  apart := by
    intro one member
    cases member
  entries := by
    intro key client id
    constructor
    · intro found
      cases found
    · rintro ⟨one, member, _⟩
      cases member
  refs := fun _ => rfl
  stored := by
    intro key ref stored
    cases stored
  opened := by
    intro one member
    cases member
  once := nodup_nil
  left := by
    intro id closed
    cases closed

theorem reaches_tracks {state : State δ ε} {active : List (Active ε)}
    (reached : Reaches state active) : Tracks state active ∧
      (active = [] → state.subscriptions = ∅ ∧ state.queries = ∅) := by
  induction reached with
  | start => exact ⟨start_tracks, fun _ => ⟨rfl, rfl⟩⟩
  | @step state active event reached running meets ih =>
  refine ⟨(step_tracks ih.1 running meets).1, fun last => ?_⟩
  by_cases none : active = []
  · subst none
    obtain ⟨subscriptions, queries⟩ := step_idle ih.1 last
    rw [subscriptions, queries]
    exact ih.2 rfl
  · exact absurd last (following_ne_nil meets none)

/-- What the server is to do: an event does what is due, each thing once; a canceled channel is
open while its subscription is active, and closed once; the references are counted; and nothing
is left behind. -/
structure Correct (state : State δ ε) (active : List (Active ε)) : Prop where
  due : ∀ event, state.running = true → Meets state active event →
    Did state (state.step event) (Due state active event)
  opened : ∀ one ∈ active,
    (state.memory one.id).canceled = false ∧ one.id ∉ closings state.log
  once : (closings state.log).Nodup
  refs : ∀ qStr, refCount state qStr = subscribers active qStr
  empty : active = [] → state.subscriptions = ∅ ∧ state.queries = ∅

theorem delivery_and_cancellation {state : State δ ε} {active : List (Active ε)}
    (reached : Reaches state active) : Correct state active := by
  obtain ⟨tracks, empty⟩ := reaches_tracks reached
  constructor
  case due =>
    intro event running meets
    exact (step_tracks tracks running meets).2
  case opened =>
    intro one member
    refine ⟨tracks.opened one member, fun closed => ?_⟩
    exact ((tracks.left one.id closed).2 one member).1 rfl
  case once => exact tracks.once
  case refs => exact tracks.refs
  case empty => exact empty

section Subscribed

def anyQuery : Query Unit := ⟨"any", fun _ => .ok true⟩

def listedOrder : Order := ⟨.listed String, fun _ => .listed String⟩

def subscribe (clientID id : String) : Event Nat Unit :=
  .command (.sub clientID anyQuery id 1) listedOrder

def subscribed : State Nat Unit := State.start.step (subscribe "client" "first")

/-- One subscription, in three runs. Unsubscribed, it leaves a row in the map. At the shutdown it
is not canceled. When the removal of its client meets the id first, it is canceled and a message
is still offered to it. -/
theorem one_subscription_mishandled :
    (subscribed.step (.command (.unsub "client" anyQuery "first") listedOrder)).subscriptions.keys =
      ["first"] ∧
    (subscribed.step (.command .shutdown listedOrder)).log = [] ∧
    ((subscribed.step (.command (.unsubAll "client") listedOrder)).step
      (.command (.pub 7 []) listedOrder)).log = [.closed "first", .offered ⟨"first", 7, []⟩] := by
  refine ⟨?_, ?_, ?_⟩ <;> decide +kernel

theorem subscribed_reaches : Reaches subscribed [⟨"client", anyQuery, "first"⟩] := by
  refine .step (subscribe "client" "first") .start rfl ⟨?_, ?_, ?_, ?_⟩
  · decide
  · decide
  · intro present
    exact absurd present (by decide)
  · intro one member
    cases member

theorem both_subscriptions_served :
    Did (subscribed.step (subscribe "other" "second"))
        ((subscribed.step (subscribe "other" "second")).step (.command (.pub 7 []) listedOrder))
        (Due (subscribed.step (subscribe "other" "second"))
          [⟨"other", anyQuery, "second"⟩, ⟨"client", anyQuery, "first"⟩]
          (.command (.pub 7 []) listedOrder)) ∧
      refCount (subscribed.step (subscribe "other" "second")) "any" = 2 := by
  have reached : Reaches (subscribed.step (subscribe "other" "second"))
      [⟨"other", anyQuery, "second"⟩, ⟨"client", anyQuery, "first"⟩] := by
    refine .step (subscribe "other" "second") subscribed_reaches rfl ⟨?_, ?_, ?_, ?_⟩
    · decide +kernel
    · decide
    · intro _
      exact ⟨_, mem_singleton_self _, rfl⟩
    · intro one member _
      cases mem_singleton.mp member
      exact ⟨rfl, by decide⟩
  have correct := delivery_and_cancellation reached
  refine ⟨correct.due _ rfl ⟨?_, ?_⟩, correct.refs "any"⟩
  · intro one member other _ failed
    rcases mem_pair.mp member with rfl | rfl <;> cases failed
  · intro _
    exact ⟨_, mem_cons_self, by decide +kernel⟩

end Subscribed

end Tendermint.PubSub
