import TcpStack.Proofs.Connection.Trace

/-! What a connection advertises. Each segment that it queues once the peer's number is known carries the
acknowledgment and the window of its receiver, and since a receiver only goes on, the position that is
acknowledged never falls, and neither does the end of the window, as wide as a header can tell it. -/

namespace TcpStack

namespace Receiver

theorem stamp_eq_ok {r : Receiver} {isn : SeqNum} {segment stamped : Segment}
    (known : r.isn = some isn) (h : r.stamp segment = .ok stamped) :
    stamped.ack = true ∧ r.ackno = some stamped.ackno ∧
      stamped.window.toNat = min r.window widestWindow := by
  cases stamp_stamped h with
  | bare unknown => simp [known] at unknown
  | acknowledges known width => exact ⟨rfl, congrArg (Option.map _) known, width⟩

theorem Advances.advertised {r after : Receiver} (advances : Advances r after) :
    r.ackPosition + min r.window widestWindow ≤
      after.ackPosition + min after.window widestWindow := by
  have position := advances.position
  have edge := advances.edge
  unfold Receiver.edge at edge
  omega

end Receiver

namespace Connection

open Outcome

variable {events : List Event} {c after : Connection} {call : Call} {reply : Reply}

theorem Part.stamp_eq (part : Part none c after) : after.receiver.stamp = c.receiver.stamp := by
  cases part with
  | takes came => cases came
  | sends | flushes | replaces | kills | ages | checks | expires => rfl

theorem Parts.queues (parts : Parts none c after) :
    after.receiver.stamp = c.receiver.stamp ∧ ∃ more, after.queued = c.queued ++ more ∧
      ∀ segment ∈ more, ∃ plain, c.receiver.stamp plain = .ok segment := by
  refine parts.induction (P := fun x => x.receiver.stamp = c.receiver.stamp ∧
    ∃ more, x.queued = c.queued ++ more ∧
      ∀ segment ∈ more, ∃ plain, c.receiver.stamp plain = .ok segment) ?_ ?_
  · exact ⟨rfl, [], (List.append_nil _).symm, by simp⟩
  rintro x y part ⟨same, more, queued, stamped⟩
  refine ⟨part.stamp_eq.trans same, ?_⟩
  cases part with
  | takes came => cases came
  | sends | replaces | kills | ages | checks | expires => exact ⟨more, queued, stamped⟩
  | @flushes new stamps =>
    refine ⟨more ++ new, ?_, fun segment member => ?_⟩
    · rw [← List.append_assoc, ← queued]
    · rcases List.mem_append.mp member with old | fresh
      · exact stamped segment old
      · obtain ⟨plain, -, hstamp⟩ := mem_of_mapM stamps fresh
        exact ⟨plain, same ▸ hstamp⟩

theorem Performs.queues (performs : Performs c call after reply) :
    ∃ more, after.queued = c.queued ++ more ∧
      ∀ segment ∈ more, ∃ plain, after.receiver.stamp plain = .ok segment := by
  have nothing {x : Connection} (same : x.queued = c.queued) : ∃ more,
      x.queued = c.queued ++ more ∧ ∀ segment ∈ more, ∃ plain, x.receiver.stamp plain = .ok segment :=
    ⟨[], by rw [same, List.append_nil], by simp⟩
  have all {x y : Connection} (parts : Parts none x y) (start : x.queued = c.queued) : ∃ more,
      y.queued = c.queued ++ more ∧ ∀ segment ∈ more, ∃ plain, y.receiver.stamp plain = .ok segment := by
    obtain ⟨same, more, queued, stamped⟩ := parts.queues
    exact ⟨more, start ▸ queued, by rwa [same]⟩
  cases performs with
  | connects acts | aborts acts | ticks _ acts => exact all acts.parts rfl
  | ignoresWrite | ignoresFinish | reads => exact nothing rfl
  | writes _ replies | finishes replies => exact all replies.parts rfl
  | receives _ handles =>
    cases handles with
    | sleeps | passes | ends => exact nothing rfl
    | answers _ _ _ _ replies | takes _ _ _ _ _ replies => exact all replies.parts rfl

theorem event_stamped (performs : Performs c call after reply) :
    ∀ segment ∈ (c.event call after reply).queued,
      ∃ plain, after.receiver.stamp plain = .ok segment := by
  obtain ⟨more, queued, stamped⟩ := performs.queues
  rwa [event, queued, List.drop_left]

/-- The segments that were queued once the peer's number was known, each with the receiver of that
moment. -/
def adverts (events : List Event) : List (Receiver × Segment) :=
  (events.filter fun e => e.after.receiver.isn.isSome).flatMap fun e =>
    e.queued.map fun segment => (e.after.receiver, segment)

theorem adverts_append (events : List Event) (e : Event) :
    adverts (events ++ [e]) = adverts events ++
      if e.after.receiver.isn.isSome then e.queued.map fun segment => (e.after.receiver, segment)
      else [] := by
  unfold adverts
  rw [List.filter_append, List.flatMap_append]
  cases known : e.after.receiver.isn.isSome <;> simp [known]

/-- Each advert is stamped by its receiver, which goes on to those of the later ones and to that of the
connection. -/
structure Advertised (events : List Event) (c : Connection) : Prop where
  stamped : ∀ a ∈ adverts events, (∃ isn, a.1.isn = some isn) ∧ ∃ plain, a.1.stamp plain = .ok a.2
  ordered : (adverts events).Pairwise fun a b => a.1.Advances b.1
  goesOn : ∀ a ∈ adverts events, a.1.Advances c.receiver

theorem Advertised.called (advertised : Advertised events c) (performs : Performs c call after reply)
    (advances : c.receiver.Advances after.receiver) :
    Advertised (events ++ [c.event call after reply]) after := by
  have later (a : Receiver × Segment) (old : a ∈ adverts events) : a.1.Advances after.receiver :=
    (advertised.goesOn a old).trans advances
  have new {a : Receiver × Segment}
      (fresh : a ∈ if (c.event call after reply).after.receiver.isn.isSome then
        (c.event call after reply).queued.map fun segment => (after.receiver, segment) else []) :
      a.1 = after.receiver ∧ (∃ isn, a.1.isn = some isn) ∧ ∃ plain, a.1.stamp plain = .ok a.2 := by
    split at fresh
    · rename_i known
      obtain ⟨segment, member, rfl⟩ := List.mem_map.mp fresh
      exact ⟨rfl, Option.isSome_iff_exists.mp known, event_stamped performs segment member⟩
    · cases fresh
  refine ⟨?_, ?_, ?_⟩
  all_goals rw [adverts_append]
  · intro a member
    rcases List.mem_append.mp member with old | fresh
    · exact advertised.stamped a old
    · exact (new fresh).2
  · refine List.pairwise_append.mpr ⟨advertised.ordered, ?_, fun a old b fresh => ?_⟩
    · split
      · exact List.pairwise_map.mpr (List.pairwise_of_forall fun _ _ => .refl after.receiver)
      · exact List.Pairwise.nil
    · rw [(new fresh).1]
      exact later a old
  · intro a member
    rcases List.mem_append.mp member with old | fresh
    · exact later a old
    · rw [(new fresh).1]
      exact .refl _

theorem Traced.advertised (traced : Traced ByteStream.Call.reads events c) : Advertised events c := by
  induction traced with
  | opened => exact ⟨by simp [adverts], List.Pairwise.nil, by simp [adverts]⟩
  | called before within performs ih =>
    have performs := perform_performs performs
    exact ih.called performs (before.reachable.vouches.performs within performs).2
  | emitted _ _ ih => exact ⟨ih.stamped, ih.ordered, ih.goesOn⟩

/-- The advertised window never shrinks. Whatever comes in and whatever is asked for, each segment that is
queued once the peer's number is known acknowledges what its receiver has taken in and grants the window
of that moment, and neither the acknowledged position nor the end of what is granted ever falls. -/
theorem advertised_edge_monotone (traced : Traced ByteStream.Call.reads events c) :
    (∀ r segment, (r, segment) ∈ adverts events → segment.ack = true ∧
      r.ackno = some segment.ackno ∧ segment.window.toNat = min r.window 65535) ∧
    (adverts events).Pairwise fun (r, segment) (r', segment') =>
      r.ackPosition ≤ r'.ackPosition ∧
        r.ackPosition + segment.window.toNat ≤ r'.ackPosition + segment'.window.toNat := by
  have advertised := traced.advertised
  have fields (a : Receiver × Segment) (member : a ∈ adverts events) : a.2.ack = true ∧
      a.1.ackno = some a.2.ackno ∧ a.2.window.toNat = min a.1.window Receiver.widestWindow := by
    obtain ⟨⟨isn, known⟩, plain, hstamp⟩ := advertised.stamped a member
    exact Receiver.stamp_eq_ok known hstamp
  refine ⟨fun r segment member => fields (r, segment) member, ?_⟩
  refine advertised.ordered.imp_of_mem fun {a b} first second advances => ⟨advances.position, ?_⟩
  rw [(fields a first).2.2, (fields b second).2.2]
  exact advances.advertised

theorem advertised_over_reads : ∃ events c, Traced ByteStream.Call.reads events c ∧
    (adverts events).map (fun (r, segment) => (r.ackPosition, segment.window)) =
      [(1, 4), (4, 1), (5, 2)] ∧
    (adverts events).Pairwise fun (r, segment) (r', segment') =>
      r.ackPosition ≤ r'.ackPosition ∧
        r.ackPosition + segment.window.toNat ≤ r'.ackPosition + segment'.window.toNat := by
  have seen : (fun log => (adverts log.1).map fun (r, segment) => (r.ackPosition, segment.window)) <$>
      logOfDial 4 [.segment { ack := true, seqno := ⟨5001⟩, ackno := ⟨1001⟩, payload := [97, 98, 99] },
        .inbound (.read 2),
        .segment { ack := true, seqno := ⟨5004⟩, ackno := ⟨1001⟩, payload := [100] }] =
      .ok [(1, 4), (4, 1), (5, 2)] := by decide +kernel
  obtain ⟨⟨events, c⟩, logged, look⟩ := map_eq_ok.mp seen
  have traced : Traced ByteStream.Call.reads events c :=
    traced_logOfDial (by decide) (by decide) (by simp [Call.within, ByteStream.Call.reads]) logged
  exact ⟨events, c, traced, look, (advertised_edge_monotone traced).2⟩

end Connection
end TcpStack
