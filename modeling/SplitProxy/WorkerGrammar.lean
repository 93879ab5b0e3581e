import SplitProxy.WorkerProcess

/-!
# The frames a worker sends for one session

Beside the open goroutine, its reader and the connection loop write to the send
queue, and the reader is started before CmdConnected is queued. The frames of a
session keep their order exactly as long as neither of them comes too early or
too late.
-/
namespace SplitProxy.WorkerProcess

open Runs

/-! ## The order of the frames -/

/-- Close frames only, or CmdConnected, then data frames, then close frames. -/
def Grammar (d : Command) (fs : List Command) : Prop :=
  (∀ c ∈ fs, c = .close) ∨
    ∃ k m, fs = .connected :: (List.replicate k d ++ List.replicate m .close)

section Grammar

variable {d : Command} {fs : List Command}

theorem grammar_close (h : Grammar d fs) : Grammar d (fs ++ [.close]) := by
  rcases h with h | ⟨k, m, rfl⟩
  · left
    intro c hc
    rcases List.mem_append.mp hc with hc | hc
    · exact h c hc
    · exact List.mem_singleton.mp hc
  · right
    refine ⟨k, m + 1, ?_⟩
    rw [List.replicate_succ', List.cons_append, List.append_assoc]

/-- Without a close frame and without CmdConnected nothing has been sent. -/
theorem grammar_nil (h : Grammar d fs) (hclose : .close ∉ fs) (hconn : .connected ∉ fs) :
    fs = [] := by
  rcases h with h | ⟨k, m, rfl⟩
  · apply List.eq_nil_iff_forall_not_mem.mpr
    intro c hc
    exact hclose (h c hc ▸ hc)
  · exact absurd List.mem_cons_self hconn

theorem grammar_data (h : Grammar d fs) (hconn : .connected ∈ fs) (hclose : .close ∉ fs) :
    Grammar d (fs ++ [d]) := by
  rcases h with h | ⟨k, m, rfl⟩
  · cases h _ hconn
  · have hm : m = 0 := by
      by_contra hm
      exact hclose (by simp [hm])
    subst hm
    right
    refine ⟨k + 1, 0, ?_⟩
    rw [List.replicate_succ']
    simp

theorem not_grammar_connected (hd : d ≠ .connected) (hclose : .close ∈ fs) :
    ¬Grammar d (fs ++ [.connected]) := by
  rintro (h | ⟨k, m, h⟩)
  · cases h .connected (by simp)
  · cases fs with
    | nil => cases hclose
    | cons c fs =>
      rw [List.cons_append] at h
      have hmem : Command.connected ∈ List.replicate k d ++ List.replicate m .close := by
        rw [← (List.cons.inj h).2]
        simp
      rcases List.mem_append.mp hmem with hmem | hmem
      · exact hd (List.eq_of_mem_replicate hmem).symm
      · cases List.eq_of_mem_replicate hmem

theorem not_grammar_early (hd : d ≠ .close) (hd' : d ≠ .connected) (hconn : .connected ∉ fs) :
    ¬Grammar d (fs ++ [d]) := by
  rintro (h | ⟨k, m, h⟩)
  · exact hd (h d (by simp))
  · cases fs with
    | nil => exact hd' (List.cons.inj h).1
    | cons c fs => exact hconn ((List.cons.inj h).1 ▸ List.mem_cons_self)

theorem not_grammar_late (hd : d ≠ .close) (hclose : .close ∈ fs) : ¬Grammar d (fs ++ [d]) := by
  rintro (h | ⟨k, m, h⟩)
  · exact hd (h d (by simp))
  · cases fs with
    | nil => cases hclose
    | cons c fs =>
      rw [List.cons_append] at h
      obtain ⟨rfl, htail⟩ := List.cons.inj h
      have hmem : Command.close ∈ fs := by simpa using hclose
      cases m with
      | zero =>
        have hin : Command.close ∈ fs ++ [d] := List.mem_append_left _ hmem
        rw [htail] at hin
        exact hd (List.eq_of_mem_replicate (by simpa using hin)).symm
      | succ m =>
        rw [List.replicate_succ', ← List.append_assoc] at htail
        exact hd (List.cons.inj (List.append_inj_right' htail rfl)).1

end Grammar

/-! ## Who sends what -/

/-- The commands queued for an id on a broker connection. -/
def commands (s : State) (n : Nat) (id : SessionId) : List Command :=
  (packetsOf id (s.links n).send.sent).map Prod.fst

/-- The id has been opened once. -/
def Once (s : State) (i : Nat) (id : SessionId) : Prop :=
  ∀ (j : Nat) y, s.opens[j]? = some y → y.id = id → j = i

/-- The frames of every session opened once are in order, on every broker connection. -/
def Grammatical (s : State) : Prop :=
  ∀ (i : Nat) x, s.opens[i]? = some x → Once s i x.id →
    ∀ n, Grammar (dataCommand x) (commands s n x.id)

/-- The reader is about to send a piece of what it has read. -/
def Sending (s : State) (i : Nat) : Prop := ∃ rest eof, (s.streams i).reader = .send rest eof

/-- CmdConnected is queued before any close frame, data only after the open goroutine has
returned from queuing CmdConnected, and none after a close frame. -/
def InOrder (s : State) (e : Event) : Prop :=
  (step s e).isSome = true → ∀ (i : Nat) x, s.opens[i]? = some x → Once s i x.id →
    (e = .opener i true → x.opener = .sendConnected → .close ∉ commands s x.link x.id) ∧
    (e = .reader i (.send true) → Sending s i →
      x.opener = .connected ∧ .close ∉ commands s x.link x.id)

/-- What the order depends on in a session. -/
structure Key where
  id : SessionId
  link : Nat
  data : Command
  connected : Bool

def key (x : Session) : Key := ⟨x.id, x.link, dataCommand x, x.opener = .connected⟩

variable {s t : State} {e : Event} {x : Session} {i : Nat}

/-- One frame has been added to one queue. -/
def Pushes (s t : State) (n : Nat) (f : Frame SessionId) : Prop :=
  ∀ m, (t.links m).send.sent = (s.links m).send.sent ++ if m = n then [f] else []

/-- Who sends CmdClose for an id: its open goroutine after a failed dial, its reader, or
`closeSession` for a close frame. -/
inductive SendsClose (s : State) (e : Event) (n : Nat) (id : SessionId) : Prop where
  | opener (i : Nat) (x : Session) (he : e = .opener i true) (hi : s.opens[i]? = some x)
      (hx : x.opener = .sendClose) (hid : x.id = id) (hn : x.link = n) : SendsClose s e n id
  | reader (i : Nat) (x : Session) (he : e = .reader i (.send true)) (hi : s.opens[i]? = some x)
      (hr : (s.streams i).reader = .sendClose) (hid : x.id = id) (hn : x.link = n) :
      SendsClose s e n id
  | loop (he : e = .loop (.send true)) (hl : s.loop = .sendClose id) (hn : s.link = n) :
      SendsClose s e n id

/-- Everything a step does to the queues. -/
inductive SendEffect (s : State) (e : Event) (t : State) : Prop where
  | quiet (hkeys : t.opens.map key = s.opens.map key)
      (hsent : ∀ n, (t.links n).send.sent = (s.links n).send.sent) : SendEffect s e t
  | spawn (f : Frame SessionId) (hkeys : t.opens = s.opens ++ [newSession s f])
      (hsent : ∀ n, (t.links n).send.sent = (s.links n).send.sent) : SendEffect s e t
  | connected (i : Nat) (x : Session) (hi : s.opens[i]? = some x) (hx : x.opener = .sendConnected)
      (he : e = .opener i true) (hkeys : t.opens = s.opens.set i { x with opener := .connected })
      (hpush : Pushes s t x.link ⟨x.id, .connected, []⟩) : SendEffect s e t
  | data (i : Nat) (x : Session) (p : Payload) (hi : s.opens[i]? = some x) (hr : Sending s i)
      (he : e = .reader i (.send true)) (hkeys : t.opens.map key = s.opens.map key)
      (hpush : Pushes s t x.link ⟨x.id, dataCommand x, p⟩) : SendEffect s e t
  | close (n : Nat) (id : SessionId) (hid : ∃ x ∈ s.opens, x.id = id)
      (hkeys : t.opens.map key = s.opens.map key)
      (hpush : Pushes s t n ⟨id, .close, []⟩) (hfrom : SendsClose s e n id) : SendEffect s e t

theorem sendPacket_pushes {n : Nat} {f : Frame SessionId} {ok : Bool}
    (h : s.sendPacket n f ok = some t) :
    (∃ ls, t = { s with links := ls }) ∧ (ok = true ∧ Pushes s t n f ∨ ok = false ∧ t = s) := by
  refine ⟨sendPacket_some h, ?_⟩
  simp only [State.sendPacket] at h
  split at h
  · rename_i hok
    split at h <;> cases h
    refine Or.inl ⟨hok, fun m => ?_⟩
    by_cases hm : m = n
    · subst hm
      simp [State.setLink]
    · simp [State.setLink, hm]
  · rename_i hok
    split at h <;> cases h
    exact Or.inr ⟨by simpa using hok, rfl⟩

theorem map_key_set {y : Session} (hi : s.opens[i]? = some x) (hy : key y = key x) :
    (s.opens.set i y).map key = s.opens.map key := by
  apply List.ext_getElem?
  intro j
  have hget := @get_set s x i y hi j
  simp only [State.set] at hget
  rw [List.getElem?_map, List.getElem?_map, hget]
  split
  · rename_i hj
    subst hj
    rw [hi, Option.map_some, Option.map_some, hy]
  · rfl

theorem key_closeStep (x : Session) : key (closeStep x) = key x := by
  unfold closeStep
  split <;> rfl

theorem map_key_close (i : Nat) : (s.close i).opens.map key = s.opens.map key := by
  rcases @close_eq_set s i with h | ⟨x, hi, h⟩
  · rw [h]
  · rw [h]
    exact map_key_set hi (key_closeStep x)

theorem openStep_sends {choice : Bool} (hi : s.opens[i]? = some x)
    (h : openStep s i x choice = some t) : SendEffect s (.opener i choice) t := by
  -- a step that neither sends nor ends with CmdConnected queued
  have hquiet : ∀ {y : Session} {ss : Nat → Streams} {m : SessionId → Option Nat}
      {o : SessionId → Bool}, x.opener ≠ .connected → y.opener ≠ .connected → y.id = x.id →
      y.link = x.link → y.udp = x.udp → SendEffect s (.opener i choice)
        { s.set i y with streams := ss, sessions := m, owed := o } := by
    intro y ss m o hx hy hid hlink hudp
    refine .quiet (map_key_set hi ?_) fun n => rfl
    simp [key, dataCommand, hx, hy, hid, hlink, hudp]
  have hmem : ∃ z ∈ s.opens, z.id = x.id := ⟨x, List.mem_of_getElem? hi, rfl⟩
  cases hpc : x.opener with
  | sendConnected =>
    simp only [openStep, hpc] at h
    obtain ⟨u, hu, rfl⟩ := Option.map_eq_some_iff.mp h
    obtain ⟨⟨ls, rfl⟩, ⟨rfl, hpush⟩ | ⟨rfl, hsame⟩⟩ := sendPacket_pushes hu
    · exact .connected i x hi hpc rfl rfl hpush
    · rw [hsame]
      exact hquiet (by simp [hpc]) (by simp) rfl rfl rfl
  | sendClose =>
    simp only [openStep, hpc] at h
    obtain ⟨u, hu, rfl⟩ := Option.map_eq_some_iff.mp h
    obtain ⟨⟨ls, rfl⟩, ⟨rfl, hpush⟩ | ⟨rfl, hsame⟩⟩ := sendPacket_pushes hu
    · refine .close x.link x.id hmem (map_key_set hi ?_) hpush (.opener i x rfl hi hpc rfl rfl)
      simp [key, dataCommand, hpc]
    · rw [hsame]
      exact hquiet (by simp [hpc]) (by simp) rfl rfl rfl
  | abortClose =>
    simp only [openStep, hpc] at h
    split at h
    · cases h
      exact hquiet (by simp [hpc]) (by simp) rfl rfl rfl
    · cases h
      exact .quiet (map_key_close i) fun n => rfl
  | connected | returned =>
    simp only [openStep, hpc] at h
    cases h
  | _ =>
    simp only [openStep, hpc] at h
    repeat' split at h
    all_goals cases h
    all_goals exact hquiet (by simp [hpc]) (by simp) rfl rfl rfl

theorem writeStep_sends {g : Streams} {a : WriterEvent} (h : writeStep s i x g a = some t) :
    SendEffect s e t := by
  cases writeStep_move h with
  | closes => exact .quiet (map_key_close _) fun _ => rfl
  | _ => exact .quiet rfl fun _ => rfl

theorem readStep_sends {a : ReaderEvent} (hi : s.opens[i]? = some x)
    (h : readStep s i x (s.streams i) a = some t) : SendEffect s (.reader i a) t := by
  cases readStep_move h with
  | @data rest eof _ _ hr hu =>
    obtain ⟨⟨ls, rfl⟩, ⟨rfl, hpush⟩ | ⟨rfl, hsame⟩⟩ := sendPacket_pushes hu
    · exact .data i x _ hi ⟨rest, eof, hr⟩ rfl rfl hpush
    · rw [hsame]
      exact .quiet rfl fun _ => rfl
  | closeSent hr hu =>
    obtain ⟨⟨ls, rfl⟩, ⟨rfl, hpush⟩ | ⟨rfl, hsame⟩⟩ := sendPacket_pushes hu
    · exact .close x.link x.id ⟨x, List.mem_of_getElem? hi, rfl⟩ rfl hpush
        (.reader i x rfl hi hr rfl rfl)
    · rw [hsame]
      exact .quiet rfl fun _ => rfl
  | closes => exact .quiet (map_key_close _) fun _ => rfl
  | _ => exact .quiet rfl fun _ => rfl

/-- The loop answers a close frame only for an id that has been opened. -/
def Answers (s : State) : Prop := ∀ id, s.loop = .sendClose id → ∃ x ∈ s.opens, x.id = id

theorem closeDone_sent (n m : Nat) : ((s.closeDone n).links m).send = (s.links m).send := by
  by_cases hm : m = n
  · subst hm
    simp [State.closeDone, State.setLink]
  · simp [State.closeDone, State.setLink, hm]

theorem loopStep_sends {a : LoopEvent} (ha : Answers s) (h : loopStep s a = some t) :
    SendEffect s (.loop a) t := by
  cases loopStep_move h with
  | stopped | readError =>
    exact .quiet rfl fun n => congrArg Fifo.sent (closeDone_sent s.link n)
  | @dispatch f =>
    unfold dispatch
    split
    case h_1 | h_2 =>
      split
      · exact .quiet rfl fun _ => rfl
      · exact .spawn f rfl fun _ => rfl
    case h_6 => exact .quiet rfl fun _ => rfl
    all_goals
      split
      all_goals exact .quiet rfl fun _ => rfl
  | @send id _ _ hl hu =>
    obtain ⟨⟨ls, rfl⟩, ⟨rfl, hpush⟩ | ⟨rfl, hsame⟩⟩ := sendPacket_pushes hu
    · exact .close s.link id (ha id hl) rfl hpush (.loop rfl hl rfl)
    · rw [hsame]
      exact .quiet rfl fun _ => rfl
  | closes => exact .quiet (map_key_close _) fun _ => rfl
  | _ => exact .quiet rfl fun _ => rfl

theorem step_sends (ha : Answers s) (h : step s e = some t) : SendEffect s e t := by
  cases e with
  | cancel =>
    cases h
    exact .quiet rfl fun _ => rfl
  | watch =>
    simp only [step] at h
    split at h <;> cases h
    exact .quiet rfl fun n => congrArg Fifo.sent (closeDone_sent s.link n)
  | brokerWrite n ok =>
    simp only [step] at h
    split at h
    · obtain ⟨⟨f, c⟩, hpop, rfl⟩ := Option.map_eq_some_iff.mp h
      have hsent := (Fifo.pop_some hpop).1
      refine .quiet rfl fun m => ?_
      by_cases hm : m = n
      · subst hm
        cases ok <;> simp [State.setLink, hsent]
      · simp [State.setLink, hm]
    · cases h
  | brokerPing n | brokerStop n =>
    simp only [step] at h
    split at h <;> cases h
    refine .quiet rfl fun m => ?_
    by_cases hm : m = n
    · subst hm
      simp [State.setLink]
    · simp [State.setLink, hm]
  | opener i choice =>
    simp only [step] at h
    split at h
    · cases h
    · exact openStep_sends ‹_› h
  | writer i a =>
    simp only [step] at h
    split at h
    · cases h
    · exact writeStep_sends h
  | reader i a =>
    simp only [step] at h
    split at h
    · cases h
    · exact readStep_sends ‹_› h
  | loop a => exact loopStep_sends ha h

/-! ## The order, step by step -/

theorem key_get {y : Session} (hkeys : t.opens.map key = s.opens.map key)
    (hi : t.opens[i]? = some y) : ∃ x, s.opens[i]? = some x ∧ key x = key y := by
  have hget := congrArg (fun l => l[i]?) hkeys
  simp only [List.getElem?_map, hi, Option.map_some] at hget
  exact Option.map_eq_some_iff.mp hget.symm

theorem key_inj {x y : Session} (h : key x = key y) :
    x.id = y.id ∧ x.link = y.link ∧ dataCommand x = dataCommand y ∧
      (x.opener = .connected ↔ y.opener = .connected) := by
  simp only [key, Key.mk.injEq, decide_eq_decide] at h
  exact h

theorem once_of_keys {id : SessionId} (hkeys : t.opens.map key = s.opens.map key)
    (h : Once t i id) : Once s i id := by
  intro j y hj hid
  obtain ⟨z, hz, hkey⟩ := key_get hkeys.symm hj
  exact h j z hz (((key_inj hkey).1).trans hid)

/-- An id that is known stays known. -/
theorem ids_mono {id : SessionId} (h : SendEffect s e t) (hid : ∃ x ∈ s.opens, x.id = id) :
    ∃ x ∈ t.opens, x.id = id := by
  obtain ⟨x, hx, hid⟩ := hid
  have hsame : t.opens.map key = s.opens.map key → ∃ x ∈ t.opens, x.id = id := by
    intro hkeys
    obtain ⟨i, hi⟩ := List.mem_iff_getElem?.mp hx
    obtain ⟨y, hy, hkey⟩ := key_get hkeys.symm hi
    exact ⟨y, List.mem_of_getElem? hy, (key_inj hkey).1.trans hid⟩
  cases h with
  | quiet hkeys hsent => exact hsame hkeys
  | spawn f hkeys hsent => exact ⟨x, by rw [hkeys]; exact List.mem_append_left _ hx, hid⟩
  | connected i y hi hy he hkeys hpush =>
    obtain ⟨j, hj⟩ := List.mem_iff_getElem?.mp hx
    have hget := @get_set s y i { y with opener := .connected } hi j
    rw [State.set, ← hkeys] at hget
    by_cases hij : j = i
    · rw [if_pos hij] at hget
      subst hij
      rw [hi] at hj
      cases hj
      exact ⟨_, List.mem_of_getElem? hget, hid⟩
    · rw [if_neg hij, hj] at hget
      exact ⟨x, List.mem_of_getElem? hget, hid⟩
  | data i y p hi hr he hkeys hpush => exact hsame hkeys
  | close n id' hid' hkeys hpush => exact hsame hkeys

theorem commands_push {n m : Nat} {f : Frame SessionId} {id : SessionId} (h : Pushes s t n f) :
    commands t m id = commands s m id ++ if m = n ∧ f.id = id then [f.cmd] else [] := by
  rw [commands, commands, h m, packetsOf_append, List.map_append]
  congr 1
  by_cases hm : m = n
  · by_cases hid : f.id = id
    · rw [if_pos hm, if_pos ⟨hm, hid⟩, ← hid, packetsOf_single_self]
      rfl
    · rw [if_pos hm, if_neg (fun h => hid h.2), packetsOf_single_other hid]
      rfl
  · rw [if_neg hm, if_neg (fun h => hm h.1)]
    rfl

theorem commands_quiet {id : SessionId} (h : ∀ n, (t.links n).send.sent = (s.links n).send.sent)
    (n : Nat) : commands t n id = commands s n id := by
  rw [commands, commands, h n]

/-- What the queues say of a session opened once, in every run. -/
structure Tally (s : State) : Prop where
  inv : Inv s
  answers : Answers s
  known : ∀ n, ∀ f ∈ (s.links n).send.sent, ∃ x ∈ s.opens, x.id = f.id
  away : ∀ (i : Nat) x, s.opens[i]? = some x → Once s i x.id →
    ∀ n, n ≠ x.link → ∀ c ∈ commands s n x.id, c = .close
  connected : ∀ (i : Nat) x, s.opens[i]? = some x → Once s i x.id →
    (.connected ∈ commands s x.link x.id ↔ x.opener = .connected)

theorem tally_start : Tally start := by
  refine ⟨inv_start, nofun, nofun, fun i x h => ?_, fun i x h => ?_⟩
  · cases h
  · cases h

theorem answers_step (hs : Tally s) (h : step s e = some t) : Answers t := by
  have hsends := step_sends hs.answers h
  intro id hl
  refine ids_mono hsends ?_
  rcases step_effect h with h | ⟨i, x, choice, rfl, hi, h⟩ | ⟨a, rfl, h⟩
  · cases h <;> exact hs.answers id hl
  · cases openStep_effect (hs.inv.sound i x hi) h <;> exact hs.answers id hl
  · cases loopStep_effect h with
    | idle hd hfrom hto hnext => exact absurd hl (hnext.2 id)
    | @deleted i id' who hl' =>
      obtain ⟨x, hx, hid, -⟩ := hs.inv.deleting _ _ _ hl'
      refine ⟨x, List.mem_of_getElem? hx, ?_⟩
      cases who <;> cases hl
      exact hid
    | close i => exact hs.answers id hl
    | _ => cases hl

theorem known_step (hs : Tally s) (h : SendEffect s e t) :
    ∀ n, ∀ f ∈ (t.links n).send.sent, ∃ x ∈ t.opens, x.id = f.id := by
  intro n f hf
  have hpush : ∀ {m g}, Pushes s t m g → (∃ x ∈ s.opens, x.id = g.id) →
      ∃ x ∈ s.opens, x.id = f.id := by
    intro m g hp hg
    rw [hp n] at hf
    rcases List.mem_append.mp hf with hf | hf
    · exact hs.known n f hf
    · split at hf
      · rw [List.mem_singleton.mp hf]
        exact hg
      · cases hf
  refine ids_mono h ?_
  cases h with
  | quiet hkeys hsent => exact hs.known n f (hsent n ▸ hf)
  | spawn g hkeys hsent => exact hs.known n f (hsent n ▸ hf)
  | connected i x hi hx he hkeys hp => exact hpush hp ⟨x, List.mem_of_getElem? hi, rfl⟩
  | data i x p hi hr he hkeys hp => exact hpush hp ⟨x, List.mem_of_getElem? hi, rfl⟩
  | close m id hid hkeys hp => exact hpush hp hid

/-- The session of a known id that has been opened once is the one that sends. -/
theorem once_eq {j : Nat} {y : Session} (hi : s.opens[i]? = some x) (hj : s.opens[j]? = some y)
    (honce : Once s j y.id) (hid : x.id = y.id) : j = i ∧ y = x := by
  have hij := honce i x hi hid
  subst hij
  rw [hi] at hj
  exact ⟨rfl, (Option.some.inj hj).symm⟩

/-- A frame other than CmdConnected, sent by the session itself or a close frame. -/
theorem counts_push {n : Nat} {f : Frame SessionId} (hs : Tally s)
    (hkeys : t.opens.map key = s.opens.map key) (hpush : Pushes s t n f) (hf : f.cmd ≠ .connected)
    (hfrom : f.cmd = .close ∨
      ∃ (i : Nat) (x : Session), s.opens[i]? = some x ∧ x.id = f.id ∧ x.link = n) :
    ∀ (j : Nat) y, t.opens[j]? = some y → Once t j y.id →
      (∀ m, m ≠ y.link → ∀ c ∈ commands t m y.id, c = .close) ∧
        (.connected ∈ commands t y.link y.id ↔ y.opener = .connected) := by
  intro j y hj honce
  obtain ⟨z, hz, hkey⟩ := key_get hkeys hj
  obtain ⟨hid, hlink, -, hconn⟩ := key_inj hkey
  have honce' : Once s j z.id := hid ▸ once_of_keys hkeys honce
  refine ⟨fun m hm c hc => ?_, ?_⟩
  · rw [commands_push hpush, ← hid] at hc
    rcases List.mem_append.mp hc with hc | hc
    · exact hs.away j z hz honce' m (hlink ▸ hm) c hc
    · split at hc
      · rename_i hmn
        rw [List.mem_singleton.mp hc]
        rcases hfrom with hclose | ⟨i, x, hi, hx, hn⟩
        · exact hclose
        · obtain ⟨-, rfl⟩ := once_eq hi hz honce' (hx.trans hmn.2)
          exact absurd (hmn.1.trans (hn.symm.trans hlink)) hm
      · cases hc
  · rw [commands_push hpush, ← hid, ← hlink, ← hconn, ← hs.connected j z hz honce', List.mem_append]
    refine ⟨fun h => ?_, Or.inl⟩
    rcases h with h | h
    · exact h
    · split at h
      · exact absurd (List.mem_singleton.mp h).symm hf
      · cases h

theorem dataCommand_cases (x : Session) : dataCommand x = .data ∨ dataCommand x = .udpData := by
  unfold dataCommand
  cases x.udp
  · exact Or.inl rfl
  · exact Or.inr rfl

theorem dataCommand_ne (x : Session) : dataCommand x ≠ .close ∧ dataCommand x ≠ .connected := by
  rcases dataCommand_cases x with h | h <;> rw [h] <;> exact ⟨nofun, nofun⟩

/-- A new session finds nothing queued under its id unless the id is opened again. -/
theorem commands_new {f : Frame SessionId} (hs : Tally s)
    (hnew : ∀ x ∈ s.opens, x.id ≠ f.id) (n : Nat) : commands s n f.id = [] := by
  rw [commands, List.map_eq_nil_iff, List.eq_nil_iff_forall_not_mem]
  rintro ⟨cmd, p⟩ hp
  obtain ⟨x, hx, hid⟩ := hs.known n _ (mem_packetsOf.mp hp)
  exact hnew x hx hid

/-- The sessions before and after one is added. -/
theorem spawned {f : Frame SessionId} {j : Nat} {y : Session}
    (hopens : t.opens = s.opens ++ [newSession s f]) (hj : t.opens[j]? = some y)
    (honce : Once t j y.id) :
    s.opens[j]? = some y ∧ Once s j y.id ∨ y = newSession s f ∧ ∀ x ∈ s.opens, x.id ≠ f.id := by
  rw [hopens] at hj
  rcases get_append hj with hj | ⟨rfl, rfl⟩
  · refine Or.inl ⟨hj, fun i x hi hid => honce i x ?_ hid⟩
    rw [hopens]
    exact get_append_left hi
  · refine Or.inr ⟨rfl, fun x hx hid => ?_⟩
    obtain ⟨i, hi⟩ := List.mem_iff_getElem?.mp hx
    have hi' : t.opens[i]? = some x := by
      rw [hopens]
      exact get_append_left hi
    have hlen := (List.getElem?_eq_some_iff.mp hi).1
    have := honce i x hi' hid
    omega

/-- The sessions before and after CmdConnected has been queued for one. -/
theorem connected_get {j : Nat} {y : Session} (hi : s.opens[i]? = some x)
    (hopens : t.opens = s.opens.set i { x with opener := .connected })
    (hj : t.opens[j]? = some y) (honce : Once t j y.id) :
    j = i ∧ y = { x with opener := .connected } ∧ Once s i x.id ∨
      s.opens[j]? = some y ∧ Once s j y.id ∧ y.id ≠ x.id := by
  have hget : ∀ k : Nat, t.opens[k]? =
      if k = i then some { x with opener := .connected } else s.opens[k]? := by
    intro k
    rw [hopens]
    exact get_set hi k
  have honce' : ∀ id, Once t j id → Once s j id := by
    intro id ho k z hk hid
    by_cases hki : k = i
    · subst hki
      rw [hi] at hk
      cases hk
      exact ho k _ ((hget k).trans (if_pos rfl)) hid
    · exact ho k z ((hget k).trans ((if_neg hki).trans hk)) hid
  rw [hget] at hj
  split at hj
  · rename_i hji
    cases hj
    subst hji
    exact Or.inl ⟨rfl, rfl, honce' _ honce⟩
  · rename_i hji
    refine Or.inr ⟨hj, honce' _ honce, fun hid => hji ?_⟩
    exact (honce i _ ((hget i).trans (if_pos rfl)) hid.symm).symm

theorem counts_step (hs : Tally s) (h : SendEffect s e t) :
    ∀ (j : Nat) y, t.opens[j]? = some y → Once t j y.id →
      (∀ m, m ≠ y.link → ∀ c ∈ commands t m y.id, c = .close) ∧
        (.connected ∈ commands t y.link y.id ↔ y.opener = .connected) := by
  intro j y hj honce
  cases h with
  | quiet hkeys hsent =>
    obtain ⟨z, hz, hkey⟩ := key_get hkeys hj
    obtain ⟨hid, hlink, -, hconn⟩ := key_inj hkey
    have honce' : Once s j z.id := hid ▸ once_of_keys hkeys honce
    rw [commands_quiet hsent, ← hid, ← hlink, ← hconn, hs.connected j z hz honce']
    refine ⟨fun m hm c hc => ?_, Iff.rfl⟩
    rw [commands_quiet hsent] at hc
    exact hs.away j z hz honce' m hm c hc
  | spawn f hopens hsent =>
    rcases spawned hopens hj honce with ⟨hj, honce⟩ | ⟨rfl, hnew⟩
    · rw [commands_quiet hsent, hs.connected j y hj honce]
      refine ⟨fun m hm c hc => ?_, Iff.rfl⟩
      rw [commands_quiet hsent] at hc
      exact hs.away j y hj honce m hm c hc
    · have hnil : ∀ n, commands t n f.id = [] :=
        fun n => (commands_quiet hsent n).trans (commands_new hs hnew n)
      refine ⟨fun m _ c hc => ?_, fun hc => ?_, nofun⟩
      · rw [show commands t m (newSession s f).id = [] from hnil m] at hc
        cases hc
      · rw [show commands t _ (newSession s f).id = [] from hnil _] at hc
        cases hc
  | connected i x hi hx he hopens hpush =>
    rcases connected_get hi hopens hj honce with ⟨rfl, rfl, ho⟩ | ⟨hj, honce, hid⟩
    · refine ⟨fun m hm c hc => ?_, fun _ => rfl, fun _ => ?_⟩
      · rw [commands_push hpush, if_neg (fun h => hm h.1), List.append_nil] at hc
        exact hs.away j x hi ho m hm c hc
      · rw [commands_push hpush, if_pos ⟨rfl, rfl⟩]
        simp
    · have hsame : ∀ m, commands t m y.id = commands s m y.id := by
        intro m
        rw [commands_push hpush, if_neg (fun h => hid h.2.symm), List.append_nil]
      rw [hsame, hs.connected j y hj honce]
      refine ⟨fun m hm c hc => ?_, Iff.rfl⟩
      rw [hsame] at hc
      exact hs.away j y hj honce m hm c hc
  | data i x p hi hr he hkeys hpush =>
    exact counts_push hs hkeys hpush (dataCommand_ne x).2 (Or.inr ⟨i, x, hi, rfl, rfl⟩) j y hj honce
  | close n id hid hkeys hpush => exact counts_push hs hkeys hpush nofun (Or.inl rfl) j y hj honce

theorem tally_step (hs : Tally s) (h : step s e = some t) : Tally t := by
  have hsends := step_sends hs.answers h
  have hcounts := counts_step hs hsends
  exact ⟨inv_step hs.inv h, answers_step hs h, known_step hs hsends,
    fun j y hj ho => (hcounts j y hj ho).1, fun j y hj ho => (hcounts j y hj ho).2⟩

theorem grammatical_step (hs : Tally s) (hg : Grammatical s) (hC : InOrder s e)
    (h : step s e = some t) : Grammatical t := by
  have hC := hC (by rw [h]; rfl)
  have hsends := step_sends hs.answers h
  intro j y hj honce n
  have hkept : t.opens.map key = s.opens.map key → ∃ z, s.opens[j]? = some z ∧ key z = key y ∧
      Once s j z.id := by
    intro hkeys
    obtain ⟨z, hz, hkey⟩ := key_get hkeys hj
    exact ⟨z, hz, hkey, (key_inj hkey).1 ▸ once_of_keys hkeys honce⟩
  cases hsends with
  | quiet hkeys hsent =>
    obtain ⟨z, hz, hkey, honce'⟩ := hkept hkeys
    obtain ⟨hid, -, hdata, -⟩ := key_inj hkey
    rw [commands_quiet hsent, ← hid, ← hdata]
    exact hg j z hz honce' n
  | spawn f hopens hsent =>
    rw [commands_quiet hsent]
    rcases spawned hopens hj honce with ⟨hj, honce⟩ | ⟨rfl, hnew⟩
    · exact hg j y hj honce n
    · rw [show commands s n (newSession s f).id = [] from commands_new hs hnew n]
      exact Or.inl nofun
  | connected i x hi hx he hopens hpush =>
    rcases connected_get hi hopens hj honce with ⟨rfl, rfl, ho⟩ | ⟨hj, honce, hid⟩
    · rw [commands_push hpush]
      split
      · rename_i hn
        have hnone : .connected ∉ commands s x.link x.id := by
          rw [hs.connected j x hi ho, hx]
          exact nofun
        have hnil : commands s n x.id = [] := by
          rw [hn.1]
          exact grammar_nil (hg j x hi ho x.link) ((hC j x hi ho).1 he hx) hnone
        rw [show commands s n _ = [] from hnil]
        exact Or.inr ⟨0, 0, rfl⟩
      · rw [List.append_nil]
        exact hg j x hi ho n
    · rw [commands_push hpush, if_neg (fun h => hid h.2.symm), List.append_nil]
      exact hg j y hj honce n
  | data i x p hi hr he hkeys hpush =>
    obtain ⟨z, hz, hkey, honce'⟩ := hkept hkeys
    obtain ⟨hid, -, hdata, -⟩ := key_inj hkey
    rw [commands_push hpush, ← hid, ← hdata]
    split
    · rename_i hn
      obtain ⟨rfl, rfl⟩ := once_eq hi hz honce' hn.2
      obtain ⟨hconn, hclose⟩ := (hC j z hi honce').2 he hr
      have hmem := (hs.connected j z hi honce').mpr hconn
      rw [hn.1]
      exact grammar_data (hg j z hi honce' z.link) hmem hclose
    · rw [List.append_nil]
      exact hg j z hz honce' n
  | close m id hid' hkeys hpush =>
    obtain ⟨z, hz, hkey, honce'⟩ := hkept hkeys
    obtain ⟨hid, -, hdata, -⟩ := key_inj hkey
    rw [commands_push hpush, ← hid, ← hdata]
    split
    · exact grammar_close (hg j z hz honce' n)
    · rw [List.append_nil]
      exact hg j z hz honce' n

/-- CmdConnected is queued after a close frame. -/
theorem late_connected (hi : s.opens[i]? = some x) (honce : Once s i x.id)
    (hx : x.opener = .sendConnected) (hclose : .close ∈ commands s x.link x.id)
    (h : step s (.opener i true) = some t) : ¬Grammatical t := by
  simp only [step, hi, openStep, hx, ↓reduceIte] at h
  obtain ⟨u, hu, rfl⟩ := Option.map_eq_some_iff.mp h
  obtain ⟨⟨ls, rfl⟩, ⟨-, hpush⟩ | ⟨hok, -⟩⟩ := sendPacket_pushes hu
  · intro hg
    have hget := @get_set s x i { x with opener := .connected } hi
    have honce' : Once ({ s with links := ls }.goto i x .connected) i x.id := by
      intro j y hj hid
      have hj' := (hget j).symm.trans hj
      split at hj'
      · assumption
      · exact honce j y hj' hid
    have hgram := hg i { x with opener := .connected } ((hget i).trans (if_pos rfl)) honce' x.link
    have hpush' : Pushes s ({ s with links := ls }.goto i x .connected) x.link
        ⟨x.id, .connected, []⟩ := hpush
    rw [commands_push hpush', if_pos ⟨rfl, rfl⟩] at hgram
    exact not_grammar_connected (dataCommand_ne x).2 hclose hgram
  · cases hok

/-- Data is queued before CmdConnected, or after a close frame. -/
theorem stray_data (hs : Tally s) (hi : s.opens[i]? = some x) (honce : Once s i x.id)
    (hr : Sending s i) (hbad : x.opener ≠ .connected ∨ .close ∈ commands s x.link x.id)
    (h : step s (.reader i (.send true)) = some t) : ¬Grammatical t := by
  obtain ⟨rest, eof, hr⟩ := hr
  simp only [step, hi, readStep, hr] at h
  obtain ⟨u, hu, rfl⟩ := Option.map_eq_some_iff.mp h
  obtain ⟨⟨ls, rfl⟩, ⟨-, hpush⟩ | ⟨hok, -⟩⟩ := sendPacket_pushes hu
  · intro hg
    have hgram : Grammar (dataCommand x) (commands { s with links := ls } x.link x.id) :=
      hg i x hi honce x.link
    rw [commands_push hpush, if_pos ⟨rfl, rfl⟩] at hgram
    rcases hbad with hbad | hbad
    · refine not_grammar_early (dataCommand_ne x).1 (dataCommand_ne x).2 ?_ hgram
      rw [hs.connected i x hi honce]
      exact hbad
    · exact not_grammar_late (dataCommand_ne x).1 hbad hgram
  · cases hok

/-- A frame out of order is queued all the same. -/
theorem not_grammatical (hs : Tally s) (hC : ¬InOrder s e) :
    ∃ t, step s e = some t ∧ ¬Grammatical t := by
  simp only [InOrder, Classical.not_imp, not_forall] at hC
  obtain ⟨hen, i, x, hi, honce, hbad⟩ := hC
  obtain ⟨t, ht⟩ := Option.isSome_iff_exists.mp hen
  refine ⟨t, ht, ?_⟩
  rcases not_and_or.mp hbad with hbad | hbad
  · simp only [Classical.not_imp, not_not] at hbad
    obtain ⟨rfl, hx, hclose⟩ := hbad
    exact late_connected hi honce hx hclose ht
  · simp only [Classical.not_imp, not_and_or, not_not] at hbad
    obtain ⟨rfl, hr, hbad⟩ := hbad
    exact stray_data hs hi honce hr hbad ht

/-- The frames of every session opened once are in order exactly as long as CmdConnected
and the data frames are queued in their time. -/
theorem grammatical_iff_inOrder (es : List Event) :
    Always step Grammatical start es ↔ Meets step InOrder start es :=
  always_iff_meets (fun _ _ _ => tally_step) (fun _ _ _ => grammatical_step)
    (fun _ _ hs _ => not_grammatical hs) tally_start (fun i x h => by cases h)

def hastyId : SessionId := ⟨List.replicate 36 0x63, rfl⟩

/-- The target hangs up at once, and the reader is done before CmdConnected is queued. -/
def hasty : List Event :=
  ([.loop (.receive (hastyId.1 ++ [1])), .loop .dispatch] : List Event) ++
    (List.replicate 8 (.opener 0 true) : List Event) ++
    ([.reader 0 .next, .reader 0 (.read [] true), .reader 0 .next, .reader 0 .next, .reader 0 .next,
      .reader 0 .next, .reader 0 .next, .reader 0 (.send true), .opener 0 true] : List Event)

theorem hasty_closes_first : ¬∀ es, Always step Grammatical start es := by
  intro h
  have hsome : (run step start hasty).isSome = true := by decide +kernel
  obtain ⟨t, ht⟩ := Option.isSome_iff_exists.mp hsome
  have hopens : t.opens =
      [⟨hastyId, false, [], 0, true, .connected, .closed, false, .closed⟩] :=
    run_component ht State.opens (by decide +kernel)
  have hcommands : commands t 0 hastyId = [.close, .connected] :=
    run_component ht (fun s => commands s 0 hastyId) (by decide +kernel)
  have hgram := h hasty hasty [] t (List.append_nil _).symm ht 0 _ (by rw [hopens]; rfl) ?_ 0
  · rw [show commands t 0 _ = _ from hcommands] at hgram
    exact @not_grammar_connected .data [.close] nofun (by simp) hgram
  · intro j y hj _
    rw [hopens] at hj
    match j with
    | 0 => rfl
    | j + 1 => cases hj

end SplitProxy.WorkerProcess
