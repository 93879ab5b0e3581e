import SplitProxy.Fifo
import Mathlib.Logic.Function.Basic

/-!
# Forwarding streams

Two ways a party passes a stream on. A writer empties a queue onto a wire until
it fails. A router, one of several that share a table, takes chunks one at a time
and sends each on while the table says where to; once it does not, nothing more
of that stream is sent.
-/
namespace SplitProxy

section Channels

variable {κ α : Type} [DecidableEq κ] {c : κ → Fifo α} {k : κ} {a : α} {d : Fifo α}

/-- One channel of many is received from. -/
theorem taken_update (h : (c k).pop = some (a, d)) (j : κ) :
    (Function.update c k d j).taken = (c j).taken ++ if j = k then [a] else [] := by
  by_cases hj : j = k
  · subst hj
    rw [Function.update_self, if_pos rfl, (Fifo.pop_some h).2.1]
  · rw [Function.update_of_ne hj, if_neg hj, List.append_nil]

theorem sent_update (h : (c k).pop = some (a, d)) (j : κ) :
    (Function.update c k d j).sent = (c j).sent := by
  by_cases hj : j = k
  · subst hj
    rw [Function.update_self, (Fifo.pop_some h).1]
  · rw [Function.update_of_ne hj]

/-- One channel of many is sent on. -/
theorem taken_push (c : κ → Fifo α) (k : κ) (a : α) (j : κ) :
    (Function.update c k ((c k).push a) j).taken = (c j).taken := by
  by_cases hj : j = k
  · subst hj
    rw [Function.update_self, Fifo.push_taken]
  · rw [Function.update_of_ne hj]

end Channels

section Carries

variable {α β : Type} {f : β → α} {queue d : Fifo β} {wire v : Fifo α} {writing : Bool}

/-- A writer puts on the wire what it has taken from the queue; only when it stops
may the last element taken be missing. -/
structure Carries (f : β → α) (queue : Fifo β) (wire : Fifo α) (writing : Bool) : Prop where
  ordered : wire.sent <+: queue.taken.map f
  complete : writing = true → wire.sent = queue.taken.map f

theorem carries_empty (f : β → α) (writing : Bool) : Carries f .empty .empty writing :=
  ⟨List.prefix_rfl, fun _ => rfl⟩

theorem Carries.congr (h : Carries f queue wire writing) (ht : d.taken = queue.taken)
    (hs : v.sent = wire.sent) : Carries f d v writing :=
  ⟨by rw [ht, hs]; exact h.ordered, by rw [ht, hs]; exact h.complete⟩

theorem Carries.write {b : β} (h : Carries f queue wire true) (hp : queue.pop = some (b, d)) :
    Carries f d (wire.push (f b)) true := by
  have hsent : (wire.push (f b)).sent = d.taken.map f := by
    rw [Fifo.push_sent, h.complete rfl, (Fifo.pop_some hp).2.1, List.map_append, List.map_singleton]
  exact ⟨by rw [hsent], fun _ => hsent⟩

theorem Carries.lose {b : β} (h : Carries f queue wire writing) (hp : queue.pop = some (b, d)) :
    Carries f d wire false := by
  refine ⟨?_, nofun⟩
  rw [(Fifo.pop_some hp).2.1, List.map_append]
  exact h.ordered.trans (List.prefix_append _ _)

theorem Carries.sent_le (h : Carries f queue wire writing) : wire.sent <+: queue.sent.map f :=
  h.ordered.trans (queue.ordered.map f)

/-- What arrives is an initial segment of what was sent. -/
theorem Carries.arrived (h : Carries f queue wire writing) : wire.taken <+: queue.sent.map f :=
  wire.ordered.trans h.sent_le

section Family

variable {κ : Type} [DecidableEq κ] {queues : κ → Fifo β} {wires : κ → Fifo α}
  {running : κ → Bool} {k : κ} {b : β}

/-- One writer of many writes what it has taken. -/
theorem carries_write (hs : ∀ j, Carries f (queues j) (wires j) (running j))
    (hk : running k = true) (hp : (queues k).pop = some (b, d)) (j : κ) :
    Carries f (Function.update queues k d j)
      (Function.update wires k ((wires k).push (f b)) j) (running j) := by
  by_cases hj : j = k
  · have hw := hs k
    rw [hk] at hw
    rw [hj, Function.update_self, Function.update_self, hk]
    exact hw.write hp
  · rw [Function.update_of_ne hj, Function.update_of_ne hj]
    exact hs j

/-- One writer of many fails with what it has taken. -/
theorem carries_lose (hs : ∀ j, Carries f (queues j) (wires j) (running j))
    (hp : (queues k).pop = some (b, d)) (j : κ) :
    Carries f (Function.update queues k d j) (wires j) (Function.update running k false j) := by
  by_cases hj : j = k
  · rw [hj, Function.update_self, Function.update_self]
    exact (hs k).lose hp
  · rw [Function.update_of_ne hj, Function.update_of_ne hj]
    exact hs j

end Family

end Carries

section Relayed

variable {α : Type}

/-- What a router has in hand of a stream. -/
inductive Hand (α : Type) where
  | free
  | carrying (chunks : List α)
  | lost

/-- What a router has sent on, against what it has read: while it is `live` nothing
is missing but what it has in hand. -/
structure Relayed (live : Prop) (hand : Hand α) (read out : List α) : Prop where
  le : out <+: read
  free : hand = .free → live → out = read
  carrying : ∀ chunks, hand = .carrying chunks → out ++ chunks = read

variable {live live' : Prop} {hand : Hand α} {read out chunks : List α}

theorem relayed_nil (live : Prop) : Relayed live .free ([] : List α) [] :=
  ⟨List.prefix_rfl, fun _ _ => rfl, nofun⟩

theorem Relayed.mono (h : Relayed live hand read out) (hl : live' → live) :
    Relayed live' hand read out :=
  ⟨h.le, fun hh hlive => h.free hh (hl hlive), h.carrying⟩

/-- A chunk is read and the router knows where to send it. -/
theorem Relayed.take (h : Relayed live .free read out) (hl : live) (chunks : List α) :
    Relayed live' (.carrying chunks) (read ++ chunks) out := by
  have heq := h.free rfl hl
  refine ⟨h.le.trans (List.prefix_append _ _), nofun, fun cs hcs => ?_⟩
  cases hcs
  rw [heq]

/-- A chunk is read for which there is nobody any more. -/
theorem Relayed.miss (h : Relayed live hand read out) (hl : ¬live') (chunks : List α)
    (hh : ∀ cs, hand ≠ .carrying cs) : Relayed live' hand (read ++ chunks) out :=
  ⟨h.le.trans (List.prefix_append _ _), fun _ hlive => absurd hlive hl,
    fun cs hcs => absurd hcs (hh cs)⟩

theorem Relayed.send (h : Relayed live (.carrying chunks) read out) :
    Relayed live' .free read (out ++ chunks) := by
  have heq := h.carrying chunks rfl
  exact ⟨by rw [heq], fun _ _ => heq, nofun⟩

theorem Relayed.lose (h : Relayed live hand read out) : Relayed live' .lost read out :=
  ⟨h.le, nofun, nofun⟩

/-- Whatever it had in hand, a router that is not live sends nothing more. -/
theorem Relayed.drop (h : Relayed live hand read out) (hl : ¬live') : Relayed live' .free read out :=
  ⟨h.le, fun _ hlive => absurd hlive hl, nofun⟩

end Relayed

section Routed

variable {K L Id S α : Type} [DecidableEq K] [DecidableEq L] [DecidableEq Id]

/-- Many streams and many routers. The entry `st` once made for a stream names the
router that reads it and the destination; `live` is what the table still holds.
Streams that are not `watched` may do what they like. -/
structure Routed (watched : Id → Prop) (home : S → K) (dest : S → L) (st : Id → Option S)
    (live : Id → S → Prop) (hand : Id → K → Hand α) (read : Id → K → List α)
    (out : Id → L → List α) : Prop where
  relayed : ∀ id x, watched id → st id = some x →
    Relayed (live id x) (hand id (home x)) (read id (home x)) (out id (dest x))
  elsewhere : ∀ id l, watched id → (∀ x, st id = some x → dest x ≠ l) → out id l = []
  early : ∀ id, watched id → st id = none → ∀ k, read id k = []

/-- What a router can do with the chunk it has in hand. -/
inductive RouterMove (home : S → K) (dest : S → L) (st : Id → Option S) (live' : Id → S → Prop)
    (hand hand' : Id → K → Hand α) (out out' : Id → L → List α) : Prop where
  | keep (hh : ∀ id k, hand' id k = hand id k) (ho : ∀ id l, out' id l = out id l)
  | sent {i : Id} {x : S} {chunks : List α} (hx : st i = some x)
      (hcarry : hand i (home x) = .carrying chunks)
      (hh : ∀ id k, hand' id k = if id = i ∧ k = home x then .free else hand id k)
      (ho : ∀ id l, out' id l = if id = i ∧ l = dest x then out id l ++ chunks else out id l)
  | lost (hh : ∀ id k, hand' id k = hand id k ∨ hand' id k = .lost)
      (ho : ∀ id l, out' id l = out id l)
  | dropped (i : Id) (hi : ∀ x, ¬live' i x)
      (hh : ∀ id k, hand' id k = hand id k ∨ id = i ∧ hand' id k = .free)
      (ho : ∀ id l, out' id l = out id l)

variable {watched : Id → Prop} {home : S → K} {dest : S → L} {st : Id → Option S}
  {live live' : Id → S → Prop} {hand hand' : Id → K → Hand α} {read read' : Id → K → List α}
  {out out' : Id → L → List α}

omit [DecidableEq K] [DecidableEq L] [DecidableEq Id] in
theorem routed_empty (watched : Id → Prop) (home : S → K) (dest : S → L) (live : Id → S → Prop)
    (hand : Id → K → Hand α) :
    Routed watched home dest (fun _ => none) live hand (fun _ _ => []) fun _ _ => [] :=
  ⟨fun _ _ _ => nofun, fun _ _ _ _ => rfl, fun _ _ _ _ => rfl⟩

theorem Routed.move (h : Routed watched home dest st live hand read out)
    (hm : RouterMove home dest st live' hand hand' out out')
    (hl : ∀ id x, live' id x → live id x) :
    Routed watched home dest st live' hand' read out' := by
  cases hm with
  | keep hh ho =>
    refine ⟨fun id x hid hx => ?_, fun id l hid hw => ?_, h.early⟩
    · rw [hh, ho]
      exact (h.relayed id x hid hx).mono (hl id x)
    · rw [ho]
      exact h.elsewhere id l hid hw
  | @sent i x chunks hx hcarry hh ho =>
    refine ⟨fun id y hid hy => ?_, fun id l hid hw => ?_, h.early⟩
    · have hrel := h.relayed id y hid hy
      rw [hh, ho]
      by_cases hi : id = i
      · subst hi
        rw [hx] at hy
        cases hy
        rw [if_pos ⟨rfl, rfl⟩, if_pos ⟨rfl, rfl⟩]
        rw [hcarry] at hrel
        exact hrel.send
      · rw [if_neg fun hc => hi hc.1, if_neg fun hc => hi hc.1]
        exact hrel.mono (hl id y)
    · rw [ho, if_neg, h.elsewhere id l hid hw]
      rintro ⟨rfl, rfl⟩
      exact hw x hx rfl
  | lost hh ho =>
    refine ⟨fun id x hid hx => ?_, fun id l hid hw => ?_, h.early⟩
    · have hrel := h.relayed id x hid hx
      rw [ho]
      rcases hh id (home x) with heq | heq
      · rw [heq]
        exact hrel.mono (hl id x)
      · rw [heq]
        exact hrel.lose
    · rw [ho]
      exact h.elsewhere id l hid hw
  | dropped i hi hh ho =>
    refine ⟨fun id x hid hx => ?_, fun id l hid hw => ?_, h.early⟩
    · have hrel := h.relayed id x hid hx
      rw [ho]
      rcases hh id (home x) with heq | ⟨rfl, heq⟩
      · rw [heq]
        exact hrel.mono (hl id x)
      · rw [heq]
        exact hrel.drop (hi x)
    · rw [ho]
      exact h.elsewhere id l hid hw

omit [DecidableEq L] in
/-- Router `k` reads the next chunks of a live stream of its own. -/
theorem Routed.take {i : Id} {x : S} (h : Routed watched home dest st live hand read out)
    (chunks : List α) (hx : st i = some x) (hlive : live i x) (hfree : hand i (home x) = .free)
    (hh : ∀ id k, hand' id k = if id = i ∧ k = home x then .carrying chunks else hand id k)
    (hr : ∀ id k, read' id k = if id = i ∧ k = home x then read id k ++ chunks else read id k) :
    Routed watched home dest st live hand' read' out := by
  refine ⟨fun id y hid hy => ?_, h.elsewhere, fun id hid hnone k => ?_⟩
  · have hrel := h.relayed id y hid hy
    rw [hh, hr]
    by_cases hi : id = i
    · subst hi
      rw [hx] at hy
      cases hy
      rw [if_pos ⟨rfl, rfl⟩, if_pos ⟨rfl, rfl⟩]
      rw [hfree] at hrel
      exact hrel.take hlive chunks
    · rw [if_neg fun hc => hi hc.1, if_neg fun hc => hi hc.1]
      exact hrel
  · rw [hr, if_neg, h.early id hid hnone k]
    rintro ⟨rfl, -⟩
    rw [hx] at hnone
    cases hnone

omit [DecidableEq L] in
/-- Router `k` reads chunks of a stream it does not know, or does not know any more. -/
theorem Routed.miss {i : Id} {k : K} {chunks : List α}
    (h : Routed watched home dest st live hand read out)
    (hearly : watched i → st i = none → chunks = []) (hfree : hand i k = .free)
    (hgone : chunks = [] ∨ ∀ x, home x = k → ¬live i x)
    (hr : ∀ id j, read' id j = if id = i ∧ j = k then read id j ++ chunks else read id j) :
    Routed watched home dest st live hand read' out := by
  refine ⟨fun id y hid hy => ?_, h.elsewhere, fun id hid hnone j => ?_⟩
  · have hrel := h.relayed id y hid hy
    rw [hr]
    split
    · rename_i hc
      obtain ⟨rfl, rfl⟩ := hc
      rcases hgone with rfl | hgone
      · rw [List.append_nil]
        exact hrel
      · refine hrel.miss (hgone y rfl) chunks fun cs hcs => ?_
        rw [hfree] at hcs
        cases hcs
    · exact hrel
  · rw [hr, h.early id hid hnone j]
    split
    · rename_i hc
      obtain ⟨rfl, rfl⟩ := hc
      rw [hearly hid hnone]
      rfl
    · rfl

omit [DecidableEq K] [DecidableEq L] in
/-- Nothing was read or sent of a stream before its entry is made. -/
theorem Routed.store {i : Id} {y : S} (h : Routed watched home dest st live hand read out)
    (hnone : st i = none) (hfree : hand i (home y) = .free)
    (hl : ∀ id x, id ≠ i → live' id x → live id x) (hh : ∀ id k, hand' id k = hand id k)
    (ho : ∀ id l, out' id l = out id l) :
    Routed watched home dest (Function.update st i (some y)) live' hand' read out' := by
  have hempty : watched i → ∀ l, out i l = [] := by
    refine fun hi l => h.elsewhere i l hi fun x hx => ?_
    rw [hnone] at hx
    cases hx
  refine ⟨fun id x hid hx => ?_, fun id l hid hw => ?_, fun id hid hn k => ?_⟩
  · rw [hh, ho]
    by_cases hi : id = i
    · subst hi
      rw [Function.update_self] at hx
      cases hx
      rw [hfree, hempty hid, h.early id hid hnone]
      exact relayed_nil _
    · rw [Function.update_of_ne hi] at hx
      exact (h.relayed id x hid hx).mono (hl id x hi)
  · rw [ho]
    by_cases hi : id = i
    · subst hi
      exact hempty hid l
    · refine h.elsewhere id l hid fun x hx => hw x ?_
      rw [Function.update_of_ne hi]
      exact hx
  · by_cases hi : id = i
    · rw [hi, Function.update_self] at hn
      cases hn
    · rw [Function.update_of_ne hi] at hn
      exact h.early id hid hn k

omit [DecidableEq K] [DecidableEq Id] in
/-- What has been sent anywhere is an initial segment of what the router of the
stream has read. -/
theorem Routed.out_le {id : Id} {l : L} (h : Routed watched home dest st live hand read out)
    (hid : watched id) :
    out id l = [] ∨ ∃ x, st id = some x ∧ dest x = l ∧ out id l <+: read id (home x) := by
  by_cases hw : ∃ x, st id = some x ∧ dest x = l
  · obtain ⟨x, hx, rfl⟩ := hw
    exact Or.inr ⟨x, hx, rfl, (h.relayed id x hid hx).le⟩
  · exact Or.inl (h.elsewhere id l hid fun x hx hd => hw ⟨x, hx, hd⟩)

end Routed

end SplitProxy
