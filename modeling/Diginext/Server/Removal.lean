import Diginext.Server.Admission

/-! # Who disconnects a connection removes it

`tcp_connection::stop` and the end of the stream raise `onDisconnected`, whose handler takes the
connection out of the registry. With `L` the connections for which this has begun, a registered
connection of `L` has a thread that is removing it (`Removal`). This needs the handler to be connected
as long as the connection is registered, which the closure of an early `stop` can spoil (`Wired`).
-/
namespace Diginext.Server
open Cpp Transition
set_option autoImplicit false

variable {T U : Type}

/-- The connection that a thread is taking out of the registry. -/
def Frame.removes : Frame U → Option Connection
  | disconnected c | dropSlots c _ => some c
  | erase p | recheck p => some p
  | _ => none

def removing : List (Frame U) → Option Connection
  | [] => none
  | frame :: _ => frame.removes

/-- The accepted connection for which the step calls `tcp_connection::stop`. -/
def tells (s : TcpServer T U) : Action T U → Option Connection
  | .advance t =>
    match s.stack t with
    | .stop c :: _ => if c ∈ accepted s.raised then some c else none
    | _ => none
  | _ => none

/-- The connection whose stream the step finds ended, with the server's handler connected. -/
def endsStream (s : TcpServer T U) : Action T U → Option Connection
  | .dispatch (.readError c error _) =>
    if (error = .eof ∨ error = .connection_reset) ∧ s.slots c .onDisconnected = true then some c
    else none
  | _ => none

/-- The connection that the step closes. -/
def closes (s : TcpServer T U) : Action T U → Option Connection
  | .dispatch .closure => s.posted.head?
  | _ => none

/-- The step does not disconnect the handlers of a registered connection that no thread is removing. -/
def Wired (s : TcpServer T U) (a : Action T U) : Prop :=
  ∀ c, closes s a = some c → c ∈ s.connections → s.slots c .onDisconnected = true →
    ∃ t, removing (s.stack t) = some c

instance [Fintype T] (s : TcpServer T U) (a : Action T U) : Decidable (Wired s a) :=
  inferInstanceAs (Decidable (∀ c ∈ closes s a, c ∈ s.connections → s.slots c .onDisconnected = true →
    ∃ t, removing (s.stack t) = some c))

structure Removal (s : TcpServer T U) (L : Connection → Prop) : Prop where
  begun : ∀ c, L c → c ∈ accepted s.raised
  connected : ∀ c signal, s.slots c signal = true → c ∈ accepted s.raised
  handlers : ∀ t, ∀ frame ∈ s.stack t, ∀ c, frame.removes = some c → L c
  found : ∀ t c p, .dropSlots c p ∈ s.stack t → p = c
  gone : ∀ c ∈ accepted s.raised, c ∉ s.connections → L c
  wired : ∀ c ∈ s.connections,
    s.slots c .onDisconnected = true ∨ ∃ t, removing (s.stack t) = some c
  leaving : ∀ c ∈ s.connections, L c → ∃ t, removing (s.stack t) = some c

theorem started_removal : Removal (TcpServer.started : TcpServer T U) fun _ => False where
  begun := by simp
  connected := by simp [TcpServer.started]
  handlers := by simp [TcpServer.started]
  found := by simp [TcpServer.started]
  gone := by simp [TcpServer.started, accepted]
  wired := by simp [TcpServer.started]
  leaving := by simp

variable [DecidableEq T]

/-- A thread goes on. It keeps at the connection it is removing as long as that is registered, and
what newly loses its handler, or is newly to be removed, is being removed. -/
theorem Removal.goes {s s' : TcpServer T U} {L L' : Connection → Prop} (h : Removal s L) {t : T}
    (frames : List (Frame U)) (hstack : s'.stack = Function.update s.stack t frames)
    (hc : ∀ c ∈ s'.connections, c ∈ s.connections)
    (hslots : ∀ c signal, s'.slots c signal = true → s.slots c signal = true)
    (haccepted : accepted s'.raised = accepted s.raised)
    (hbegun : ∀ c, L' c → c ∈ accepted s.raised) (hmono : ∀ c, L c → L' c)
    (hframes : ∀ frame ∈ frames, frame ∈ s.stack t ∨
      (∀ c, frame.removes = some c → L' c) ∧ ∀ c p, frame = .dropSlots c p → p = c)
    (herased : ∀ c ∈ s.connections, c ∉ s'.connections → L' c)
    (hkeeps : ∀ c ∈ s'.connections, removing (s.stack t) = some c → removing frames = some c)
    (hunwired : ∀ c ∈ s'.connections, s.slots c .onDisconnected = true →
      s'.slots c .onDisconnected = true ∨ ∃ u, removing (s'.stack u) = some c)
    (hnew : ∀ c ∈ s'.connections, L' c → L c ∨ ∃ u, removing (s'.stack u) = some c) :
    Removal s' L' := by
  have hmem : ∀ u, ∀ frame ∈ s'.stack u, frame ∈ s.stack u ∨
      (∀ c, frame.removes = some c → L' c) ∧ ∀ c p, frame = .dropSlots c p → p = c := by
    intro u frame hf
    rw [hstack] at hf
    by_cases heq : u = t
    · subst heq
      rw [Function.update_self] at hf
      exact hframes frame hf
    · rw [Function.update_of_ne heq] at hf
      exact Or.inl hf
  have hstill : ∀ c ∈ s'.connections, (∃ u, removing (s.stack u) = some c) →
      ∃ u, removing (s'.stack u) = some c := by
    rintro c hmem ⟨u, hu⟩
    refine ⟨u, ?_⟩
    rw [hstack]
    by_cases heq : u = t
    · subst heq
      rw [Function.update_self]
      exact hkeeps c hmem hu
    · rw [Function.update_of_ne heq]
      exact hu
  constructor
  · rw [haccepted]
    exact hbegun
  · intro c signal hslot
    rw [haccepted]
    exact h.connected c signal (hslots c signal hslot)
  · intro u frame hf c hremoves
    rcases hmem u frame hf with hold | ⟨hnew, -⟩
    · exact hmono c (h.handlers u frame hold c hremoves)
    · exact hnew c hremoves
  · intro u c p hf
    rcases hmem u _ hf with hold | ⟨-, hnew⟩
    · exact h.found u c p hold
    · exact hnew c p rfl
  · intro c hmem' hnot
    rw [haccepted] at hmem'
    by_cases hold : c ∈ s.connections
    · exact herased c hold hnot
    · exact hmono c (h.gone c hmem' hold)
  · intro c hmem'
    rcases h.wired c (hc c hmem') with hslot | hremoving
    · exact hunwired c hmem' hslot
    · exact Or.inr (hstill c hmem' hremoving)
  · intro c hmem' hL
    rcases hnew c hmem' hL with hold | hremoving
    · exact hstill c hmem' (h.leaving c (hc c hmem') hold)
    · exact hremoving

/-- A thread that is removing nothing goes on to calls that remove nothing. -/
theorem Removal.onward {s s' : TcpServer T U} {L : Connection → Prop} (h : Removal s L) {t : T}
    (new rest : List (Frame U)) (hstack : s'.stack = Function.update s.stack t (new ++ rest))
    (hc : s'.connections = s.connections) (hslots : s'.slots = s.slots)
    (hr : accepted s'.raised = accepted s.raised) (hrest : rest ⊆ s.stack t)
    (hidle : removing (s.stack t) = none) (hnew : ∀ frame ∈ new, frame.removes = none) :
    Removal s' L := by
  refine h.goes (new ++ rest) hstack (fun c hmem => hc ▸ hmem) (fun c signal hs => hslots ▸ hs) hr
    h.begun (fun _ hL => hL) ?_ ?_ ?_ ?_ (fun _ _ hL => Or.inl hL)
  · intro frame hf
    rcases List.mem_append.mp hf with hf | hf
    · refine Or.inr ⟨?_, ?_⟩
      · intro c hremoves
        rw [hnew frame hf] at hremoves
        cases hremoves
      · rintro c p rfl
        cases hnew _ hf
    · exact Or.inl (hrest hf)
  · intro c hmem hnot
    exact absurd (hc ▸ hmem) hnot
  · intro c _ hremoving
    rw [hidle] at hremoving
    cases hremoving
  · intro c _ hslot
    exact Or.inl (hslots ▸ hslot)

/-! ## Steps that begin or carry on a removal -/

/-- `tcp_connection::stop` of `c`: either the handler of `onDisconnected` runs, or it is not connected
and some thread is already removing `c`. -/
theorem Removal.stops {s : TcpServer T U} {L : Connection → Prop} (h : Removal s L) {t : T}
    {c : Connection} {rest : List (Frame U)} (hold : s.stack t = .stop c :: rest) :
    Removal (s.setStack t (s.emission c .onDisconnected (handleTcpConnectionDisconnected c) ++
      .post c :: rest)) fun d => L d ∨ tells s (.advance t) = some d := by
  have htells : ∀ d, tells s (.advance t) = some d → d = c ∧ c ∈ accepted s.raised := by
    intro d hd
    simp only [tells, hold] at hd
    split at hd
    · rename_i hmem
      exact ⟨(Option.some.inj hd).symm, hmem⟩
    · cases hd
  have hbegun : ∀ d, L d ∨ tells s (.advance t) = some d → d ∈ accepted s.raised := by
    rintro d (hd | hd)
    · exact h.begun d hd
    · obtain ⟨rfl, hmem⟩ := htells d hd
      exact hmem
  have hrest : rest ⊆ s.stack t := by
    rw [hold]
    exact List.subset_cons_self _ _
  have hidle : ∀ d, removing (s.stack t) ≠ some d := by
    intro d hd
    rw [hold] at hd
    cases hd
  unfold TcpServer.emission
  split
  · rename_i hslot
    have hc : tells s (.advance t) = some c := by
      simp only [tells, hold, h.connected c _ hslot, if_true]
    refine h.goes (.disconnected c :: .post c :: rest) rfl (fun _ hd => hd) (fun _ _ hd => hd) rfl
      hbegun (fun _ hd => Or.inl hd) ?_ (fun _ hd hnot => absurd hd hnot)
      (fun d _ hd => absurd hd (hidle d)) (fun _ _ hd => Or.inl hd) ?_
    · intro frame hf
      rcases List.mem_cons.mp hf with rfl | hf
      · refine Or.inr ⟨?_, by simp⟩
        intro d hd
        cases hd
        exact Or.inr hc
      · rcases List.mem_cons.mp hf with rfl | hf
        · exact Or.inr ⟨by simp [Frame.removes], by simp⟩
        · exact Or.inl (hrest hf)
    · rintro d _ (hd | hd)
      · exact Or.inl hd
      · obtain ⟨rfl, -⟩ := htells d hd
        exact Or.inr ⟨t, by rw [TcpServer.setStack_self]; rfl⟩
  · rename_i hslot
    refine h.goes (.post c :: rest) rfl (fun _ hd => hd) (fun _ _ hd => hd) rfl
      hbegun (fun _ hd => Or.inl hd) ?_ (fun _ hd hnot => absurd hd hnot)
      (fun d _ hd => absurd hd (hidle d)) (fun _ _ hd => Or.inl hd) ?_
    · intro frame hf
      rcases List.mem_cons.mp hf with rfl | hf
      · exact Or.inr ⟨by simp [Frame.removes], by simp⟩
      · exact Or.inl (hrest hf)
    · rintro d hmem (hd | hd)
      · exact Or.inl hd
      · obtain ⟨rfl, -⟩ := htells d hd
        rcases h.wired d hmem with hconnected | ⟨u, hu⟩
        · exact absurd hconnected hslot
        · have hne : u ≠ t := by
            rintro rfl
            exact hidle d hu
          exact Or.inr ⟨u, by rw [TcpServer.setStack_of_ne s hne, hu]⟩

/-- A call that is removing `c` goes on to the next call of the removal, or `c` is no longer
registered. -/
theorem Removal.carries {s s' : TcpServer T U} {L : Connection → Prop} (h : Removal s L) {t : T}
    {frame : Frame U} {rest : List (Frame U)} {c : Connection} (hold : s.stack t = frame :: rest)
    (hremoves : frame.removes = some c) (new : List (Frame U))
    (hstack : s'.stack = Function.update s.stack t (new ++ rest))
    (hc : ∀ d ∈ s'.connections, d ∈ s.connections)
    (hslots : ∀ d, d ≠ c → s'.slots d = s.slots d)
    (hcut : ∀ signal, s'.slots c signal = true → s.slots c signal = true)
    (hr : s'.raised = s.raised)
    (herased : ∀ d ∈ s.connections, d ∉ s'.connections → d = c)
    (hnew : ∀ f ∈ new, (∀ d, f.removes = some d → d = c) ∧ ∀ d p, f = .dropSlots d p → p = d)
    (hnext : c ∈ s'.connections → removing (new ++ rest) = some c) : Removal s' L := by
  have hL : L c := h.handlers t frame (by simp [hold]) c hremoves
  have htop : removing (s.stack t) = some c := by
    rw [hold]
    exact hremoves
  refine h.goes (new ++ rest) hstack hc ?_ (by rw [hr]) h.begun (fun _ hd => hd) ?_ ?_ ?_ ?_
    (fun _ _ hd => Or.inl hd)
  · intro d signal hd
    by_cases heq : d = c
    · subst heq
      exact hcut signal hd
    · rwa [hslots d heq] at hd
  · intro f hf
    rcases List.mem_append.mp hf with hf | hf
    · refine Or.inr ⟨?_, (hnew f hf).2⟩
      intro d hd
      rw [(hnew f hf).1 d hd]
      exact hL
    · exact Or.inl (by rw [hold]; exact List.mem_cons_of_mem _ hf)
  · intro d hmem hnot
    rw [herased d hmem hnot]
    exact hL
  · intro d hmem hd
    rw [htop] at hd
    cases hd
    exact hnext hmem
  · intro d hmem hd
    by_cases heq : d = c
    · subst heq
      refine Or.inr ⟨t, ?_⟩
      rw [hstack, Function.update_self]
      exact hnext hmem
    · exact Or.inl (by rw [hslots d heq]; exact hd)

theorem Removal.registers {loop t : T} {s : TcpServer T U} {L : Connection → Prop} (h : Removal s L)
    (hadmitted : Admitted loop s) {c : Connection} {rest : List (Frame U)}
    (hold : s.stack t = .register c :: rest) :
    Removal ((s.handleAccept t c).setStack t (.listening (.onAccepted c) :: .finishAccept :: rest))
      L := by
  have hunseen := (hadmitted.ticket hold).2.1
  have hmoved : Removal (s.setStack t (.listening (.onAccepted c) :: .finishAccept :: rest)) L :=
    h.onward [.listening (.onAccepted c), .finishAccept] rest rfl rfl rfl rfl
      (by rw [hold]; exact List.subset_cons_self _ _) (by rw [hold]; rfl) (by simp [Frame.removes])
  have haccepted : ∀ d, d ∈ accepted (s.raised ++ [.onAccepted c]) ↔
      d ∈ accepted s.raised ∨ d = c := by
    intro d
    rw [accepted_append_self, List.mem_append, List.mem_singleton]
  constructor
  · exact fun d hd => (haccepted d).mpr (Or.inl (hmoved.begun d hd))
  · intro d signal hd
    by_cases heq : d = c
    · exact (haccepted d).mpr (Or.inr heq)
    · have hslot : s.slots d signal = true := by
        rw [← hd]
        exact (congrFun (Function.update_of_ne heq _ _) signal).symm
      exact (haccepted d).mpr (Or.inl (hmoved.connected d signal hslot))
  · exact hmoved.handlers
  · exact hmoved.found
  · intro d hd hnot
    rcases (haccepted d).mp hd with hd | rfl
    · exact hmoved.gone d hd fun hmem => hnot (List.mem_append_left _ hmem)
    · exact absurd (List.mem_append_right _ (List.mem_singleton_self d)) hnot
  · intro d hd
    by_cases heq : d = c
    · subst heq
      refine Or.inl ?_
      exact congrFun (Function.update_self d _ s.slots) Signal.onDisconnected
    · have hmem : d ∈ s.connections := by
        rcases List.mem_append.mp hd with hd | hd
        · exact hd
        · exact absurd (List.mem_singleton.mp hd) heq
      rcases hmoved.wired d hmem with hslot | hremoving
      · refine Or.inl ?_
        rw [← hslot]
        exact congrFun (Function.update_of_ne heq _ s.slots) Signal.onDisconnected
      · exact Or.inr hremoving
  · intro d hd hL
    have hne : d ≠ c := by
      rintro rfl
      exact hunseen (hmoved.begun d hL)
    have hmem : d ∈ s.connections := by
      rcases List.mem_append.mp hd with hd | hd
      · exact hd
      · exact absurd (List.mem_singleton.mp hd) hne
    exact hmoved.leaving d hmem hL

omit [DecidableEq T] in
theorem Removal.congr {s : TcpServer T U} {L L' : Connection → Prop} (h : Removal s L)
    (hL : ∀ c, L' c ↔ L c) : Removal s L' := by
  have heq : L' = L := by
    funext c
    exact propext (hL c)
  rwa [heq]

/-! ## One step -/

variable [DecidableEq U] {uuid : Connection → U}

omit [DecidableEq T] in
/-- The look-up for an accepted connection finds it or nothing. -/
theorem Admitted.lookup {loop : T} {s : TcpServer T U} (h : Admitted loop s)
    (hdistinct : Distinct uuid s.created) {c p : Connection} (hc : c ∈ accepted s.raised)
    (hfound : s.getConnectionByUUID uuid (uuid c) = some p) : p = c := by
  obtain ⟨hp, heq⟩ := TcpServer.getConnectionByUUID_some hfound
  exact hdistinct p c (h.created p (h.registered p hp)) (h.created c hc) heq

omit [DecidableEq T] in
theorem follows_removes {s : TcpServer T U} {frame : Frame U} {new : List (Frame U)}
    (h : TcpServer.Follows uuid s frame new) (hstop : ∀ c, frame ≠ .stop c) :
    frame.removes = none ∧ ∀ f ∈ new, f.removes = none := by
  cases h with
  | stop c => exact absurd rfl (hstop c)
  | message c msg messages =>
    refine ⟨rfl, fun f hf => ?_⟩
    rcases TcpServer.mem_emission_concat hf with rfl | rfl
    · rfl
    · rfl
  | _ => exact ⟨rfl, by simp [Frame.removes]⟩

theorem Removal.advance {loop t : T} {s s' : TcpServer T U} {L : Connection → Prop}
    (h : Removal s L) (hadmitted : Admitted loop s) (hdistinct : Distinct uuid s.created)
    {frame : Frame U} {rest : List (Frame U)} (hold : s.stack t = frame :: rest)
    (hs : s.advance uuid t rest frame = some s') :
    Removal s' fun c => L c ∨ tells s (.advance t) = some c := by
  by_cases hstop : ∃ c, frame = .stop c
  · obtain ⟨c, rfl⟩ := hstop
    cases hs
    exact h.stops hold
  have hquiet : ∀ c, tells s (.advance t) ≠ some c := by
    intro c hc
    simp only [tells, hold] at hc
    split at hc
    · rename_i d tail heq
      cases heq
      exact hstop ⟨d, rfl⟩
    · cases hc
  suffices Removal s' L from this.congr fun c => or_iff_left (hquiet c)
  have hpart : rest ⊆ s.stack t := by
    rw [hold]
    exact List.subset_cons_self _ _
  have htop : frame ∈ s.stack t := by
    rw [hold]
    exact List.mem_cons_self ..
  have hidle : frame.removes = none → removing (s.stack t) = none := by
    intro hframe
    rw [hold]
    exact hframe
  have haccepted : ∀ c, frame.removes = some c → c ∈ accepted s.raised :=
    fun c hc => h.begun c (h.handlers t frame htop c hc)
  cases TcpServer.advances_of_advance uuid hs with
  | @follows frame new hf =>
    obtain ⟨hframe, hnew⟩ := follows_removes hf fun c hc => hstop ⟨c, hc⟩
    exact h.onward new rest rfl rfl rfl rfl hpart (hidle hframe) hnew
  | post c | read c | finishAccept =>
    exact h.onward [] rest rfl rfl rfl rfl hpart (hidle rfl) (by simp)
  | @found c p hfound =>
    have hp := hadmitted.lookup hdistinct (haccepted c rfl) hfound
    exact h.carries hold rfl [.dropSlots c p] rfl (fun _ hd => hd) (fun _ _ => rfl)
      (fun _ hd => hd) rfl (fun _ hd hnot => absurd hd hnot) (by simp [Frame.removes, hp])
      fun _ => rfl
  | @notFound c hnone =>
    exact h.carries hold rfl [] rfl (fun _ hd => hd) (fun _ _ => rfl) (fun _ hd => hd) rfl
      (fun _ hd hnot => absurd hd hnot) (by simp)
      fun hmem => absurd hmem (TcpServer.not_registered_of_lookup hnone)
  | dropSlots c p =>
    have hp := h.found t c p htop
    refine h.carries hold rfl [.erase p] rfl (fun _ hd => hd)
      (fun _ hne => Function.update_of_ne hne _ _) ?_ rfl (fun _ hd hnot => absurd hd hnot)
      (by simp [Frame.removes, hp]) fun _ => by rw [hp]; rfl
    intro signal hd
    exact absurd ((congrFun (Function.update_self c _ s.slots) signal).symm.trans hd) (by simp)
  | erase p =>
    refine h.carries hold rfl [.recheck p] rfl (fun _ hd => List.mem_of_mem_eraseP hd)
      (fun _ _ => rfl) (fun _ hd => hd) rfl ?_ (by simp [Frame.removes]) fun _ => rfl
    intro d hd hnot
    have heq : uuid d = uuid p := by
      by_contra hne
      exact hnot ((List.mem_eraseP_of_neg (by simpa using hne)).mpr hd)
    exact hdistinct d p (hadmitted.created d (hadmitted.registered d hd))
      (hadmitted.created p (haccepted p rfl)) heq
  | @again p q hfound =>
    exact h.carries hold rfl [.erase p] rfl (fun _ hd => hd) (fun _ _ => rfl) (fun _ hd => hd) rfl
      (fun _ hd hnot => absurd hd hnot) (by simp [Frame.removes]) fun _ => rfl
  | @removed p hnone =>
    exact h.carries hold rfl [.emit (.onDisconnected p)] rfl (fun _ hd => hd) (fun _ _ => rfl)
      (fun _ hd => hd) rfl (fun _ hd hnot => absurd hd hnot) (by simp [Frame.removes])
      fun hmem => absurd hmem (TcpServer.not_registered_of_lookup hnone)
  | emit event =>
    exact h.onward [.listening event] rest rfl rfl rfl
      (accepted_append_other (hadmitted.not_accepted hold) s.raised) hpart (hidle rfl)
      (by simp [Frame.removes])
  | register c hsync => exact h.registers hadmitted hold

omit [DecidableEq U] in
/-- The peer has ended the stream of `c`, and the handler of `onDisconnected` is connected. -/
theorem Removal.streamEnds {loop : T} {s : TcpServer T U} {L : Connection → Prop} (h : Removal s L)
    (hidle : s.stack loop = []) {c : Connection} (hslot : s.slots c .onDisconnected = true) :
    Removal ({ s with reading := Function.update s.reading c false }.setStack loop
      [.disconnected c]) fun d => L d ∨ d = c := by
  refine h.goes [.disconnected c] rfl (fun _ hd => hd) (fun _ _ hd => hd) rfl ?_
    (fun _ hd => Or.inl hd) ?_ (fun _ hd hnot => absurd hd hnot) ?_ (fun _ _ hd => Or.inl hd) ?_
  · rintro d (hd | rfl)
    · exact h.begun d hd
    · exact h.connected d _ hslot
  · intro frame hf
    rw [List.mem_singleton.mp hf]
    refine Or.inr ⟨?_, by simp⟩
    intro d hd
    cases hd
    exact Or.inr rfl
  · intro d _ hd
    rw [hidle] at hd
    cases hd
  · rintro d _ (hd | rfl)
    · exact Or.inl hd
    · exact Or.inr ⟨loop, by rw [TcpServer.setStack_self]; rfl⟩

omit [DecidableEq T] [DecidableEq U] in
theorem Removal.closes {s : TcpServer T U} {L : Connection → Prop} (h : Removal s L)
    {c : Connection} {posted : List Connection} (hposted : s.posted = c :: posted)
    (hwired : Wired s (.dispatch .closure)) :
    Removal { s with posted := posted, slots := Function.update s.slots c fun _ => false } L where
  begun := h.begun
  connected := by
    intro d signal hd
    by_cases heq : d = c
    · subst heq
      exact absurd ((congrFun (Function.update_self d _ s.slots) signal).symm.trans hd) (by simp)
    · exact h.connected d signal ((congrFun (Function.update_of_ne heq _ s.slots) signal).symm.trans hd)
  handlers := h.handlers
  found := h.found
  gone := h.gone
  wired := by
    intro d hd
    rcases h.wired d hd with hslot | hremoving
    · by_cases heq : d = c
      · subst heq
        exact Or.inr (hwired d (by simp [Server.closes, hposted]) hd hslot)
      · exact Or.inl ((congrFun (Function.update_of_ne heq _ s.slots) _).trans hslot)
    · exact Or.inr hremoving
  leaving := h.leaving

omit [DecidableEq U] in
theorem Removal.dispatch {loop : T} {s s' : TcpServer T U} {L : Connection → Prop} (h : Removal s L)
    {completion : Completion} (hidle : s.stack loop = []) (hwired : Wired s (.dispatch completion))
    (hs : TcpServer.Dispatches loop s completion s') :
    Removal s' fun c => L c ∨ endsStream s (.dispatch completion) = some c := by
  have hgoes : ∀ {s' : TcpServer T U} (frames : List (Frame U)),
      s'.stack = Function.update s.stack loop frames → s'.connections = s.connections →
      s'.slots = s.slots → s'.raised = s.raised → (∀ frame ∈ frames, frame.removes = none) →
      Removal s' L := by
    intro s' frames hstack hc hslots hr hnew
    exact h.onward frames [] (by rw [hstack, List.append_nil]) hc hslots (by rw [hr])
      (List.nil_subset _) (by rw [hidle]; rfl) hnew
  have hnone : (∀ c, endsStream s (.dispatch completion) ≠ some c) → Removal s' L →
      Removal s' fun c => L c ∨ endsStream s (.dispatch completion) = some c :=
    fun hquiet hremoval => hremoval.congr fun c => or_iff_left (hquiet c)
  cases hs with
  | accept hc => exact hnone nofun (hgoes [.register _] rfl rfl rfl rfl (by simp [Frame.removes]))
  | acceptError error hc =>
    exact hnone nofun (hgoes [.emit _, .register _] rfl rfl rfl rfl (by simp [Frame.removes]))
  | read messages hc =>
    exact hnone nofun (hgoes [.reading _ messages] rfl rfl rfl rfl (by simp [Frame.removes]))
  | @readError c error n hc =>
    by_cases hends : (error = .eof ∨ error = .connection_reset) ∧ s.slots c .onDisconnected = true
    · have hframes : s.handleReadError c error n = [.disconnected c] := by
        simp only [TcpServer.handleReadError, TcpServer.emission, hends.1, hends.2, if_true]
        rfl
      rw [hframes]
      refine (h.streamEnds hidle hends.2).congr fun d => ?_
      have hsome : endsStream s (.dispatch (.readError c error n)) = some c := if_pos hends
      rw [hsome, Option.some.injEq, eq_comm]
    · have hquiet : endsStream s (.dispatch (.readError c error n)) = none := if_neg hends
      refine hnone (by rw [hquiet]; exact nofun) (hgoes (s.handleReadError c error n) rfl rfl rfl rfl ?_)
      intro frame hf
      unfold TcpServer.handleReadError TcpServer.emission at hf
      split at hf
      · rename_i herror
        split at hf
        · rename_i hslot
          exact absurd ⟨herror, hslot⟩ hends
        · cases hf
      · split at hf
        · rw [List.mem_singleton.mp hf]
          rfl
        · cases hf
  | writeError c error n =>
    refine hnone nofun (hgoes _ rfl rfl rfl rfl fun frame hf => ?_)
    rcases TcpServer.mem_emission_concat hf with rfl | rfl
    · rfl
    · rfl
  | closure hc => exact hnone nofun (h.closes hc hwired)

theorem Removal.step {loop : T} {s s' : TcpServer T U} {L : Connection → Prop} {a : Action T U}
    (h : Removal s L) (hadmitted : Admitted loop s) (hdistinct : Distinct uuid s.created)
    (hwired : Wired s a) (hs : TcpServer.step uuid loop s a = some s') :
    Removal s' fun c => L c ∨ tells s a = some c ∨ endsStream s a = some c := by
  have hentry : ∀ op, (TcpServer.entry uuid op).removes = none := by
    intro op
    cases op <;> rfl
  have hgoes : ∀ {t : T} {event : Event} {tail : List (Frame U)} {s' : TcpServer T U}
      (frames rest : List (Frame U)), s.stack t = .listening event :: tail →
      s'.stack = Function.update s.stack t (frames ++ rest) → s'.connections = s.connections →
      s'.slots = s.slots → s'.raised = s.raised → rest ⊆ s.stack t →
      (∀ frame ∈ frames, frame.removes = none) → Removal s' L := by
    intro t event tail s' frames rest hold hstack hc hslots hr hrest hnew
    exact h.onward frames rest hstack hc hslots (by rw [hr]) hrest (by rw [hold]; rfl) hnew
  cases TcpServer.steps_of_step uuid hs with
  | dispatch hrunning hidle hd =>
    exact (h.dispatch hidle hwired hd).congr fun c => or_congr_right (by simp [tells])
  | @call t op hidle hloop =>
    have hmoved : Removal (s.setStack t [TcpServer.entry uuid op]) L :=
      h.onward [TcpServer.entry uuid op] [] rfl rfl rfl rfl (List.nil_subset _)
        (by rw [hidle]; rfl) (by simpa using hentry op)
    exact hmoved.congr fun c => by simp [tells, endsStream]
  | @callback t event rest op hold =>
    have hmoved : Removal (s.setStack t (TcpServer.entry uuid op :: .listening event :: rest)) L :=
      hgoes [TcpServer.entry uuid op] (.listening event :: rest) hold rfl rfl rfl rfl
        (by rw [hold]; exact List.Subset.refl _) (by simpa using hentry op)
    exact hmoved.congr fun c => by simp [tells, endsStream]
  | @returns t event rest hold =>
    have hmoved : Removal (s.setStack t rest) L :=
      hgoes [] rest hold rfl rfl rfl rfl (by rw [hold]; exact List.subset_cons_self _ _) (by simp)
    exact hmoved.congr fun c => by simp [tells, endsStream]
  | @caught t event rest hold hframes =>
    have hpart : TcpServer.unwind rest ⊆ s.stack t := by
      rw [hold]
      exact List.Subset.trans (List.dropWhile_sublist _).subset (List.subset_cons_self _ _)
    have hmoved : Removal (s.setStack t (TcpServer.unwind rest)) L :=
      hgoes [] (TcpServer.unwind rest) hold rfl rfl rfl rfl hpart (by simp)
    exact hmoved.congr fun c => by simp [tells, endsStream]
  | @escapes t event rest hold hframes =>
    have hmoved : Removal
        ({ s with running := s.running && decide (t ≠ loop) }.setStack t []) L :=
      hgoes [] [] hold rfl rfl rfl rfl (List.nil_subset _) (by simp)
    exact hmoved.congr fun c => by simp [tells, endsStream]
  | advance hold hadvance =>
    exact (h.advance hadmitted hdistinct hold hadvance).congr fun c =>
      or_congr_right (by simp [endsStream])

/-! ## The close routine -/

/-- The calls below the innermost stay as they are. -/
theorem advance_below {s s' : TcpServer T U} {t : T} {frame : Frame U} {rest : List (Frame U)}
    (hs : s.advance uuid t rest frame = some s') : rest ⊆ s'.stack t := by
  cases TcpServer.advances_of_advance uuid hs <;> rw [TcpServer.setStack_self]
  case follows new _ => exact List.subset_append_right new rest
  case register => exact List.subset_append_right [_, _] rest
  case post | notFound | read | finishAccept => exact List.Subset.refl _
  all_goals exact List.subset_cons_self _ rest

theorem advance_posted {s s' : TcpServer T U} {t : T} {frame : Frame U} {rest : List (Frame U)}
    (hs : s.advance uuid t rest frame = some s') :
    s'.posted = s.posted ∨ ∃ c, frame = .post c ∧ s'.posted = s.posted ++ [c] := by
  cases TcpServer.advances_of_advance uuid hs with
  | post c => exact Or.inr ⟨c, rfl, rfl⟩
  | _ => exact Or.inl rfl

omit [DecidableEq T] [DecidableEq U] in
/-- An exception does not get past a call that catches it. -/
theorem mem_unwind {frame : Frame U} (hframe : frame.catches = true) {rest : List (Frame U)}
    (hmem : frame ∈ rest) : frame ∈ TcpServer.unwind rest := by
  induction rest with
  | nil => cases hmem
  | cons first rest ih =>
    unfold TcpServer.unwind
    rw [List.dropWhile_cons]
    split
    · rename_i hskip
      rcases List.mem_cons.mp hmem with rfl | hmem
      · rw [hframe] at hskip
        cases hskip
      · exact ih hmem
    · exact hmem

/-- A call that catches exceptions stays where it is until it is the innermost one and goes on. -/
theorem step_catching {loop t : T} {s s' : TcpServer T U} {a : Action T U} {frame : Frame U}
    (hcatches : frame.catches = true) (hmem : frame ∈ s.stack t)
    (hs : TcpServer.step uuid loop s a = some s') :
    frame ∈ s'.stack t ∨ a = .advance t ∧ ∃ rest, s.stack t = frame :: rest := by
  by_cases hother : t ≠ a.thread loop
  · rw [step_other hs hother]
    exact Or.inl hmem
  have hself : t = a.thread loop := not_not.mp hother
  have hlistener : ∀ event, frame ≠ .listening event := by
    rintro event rfl
    cases hcatches
  cases TcpServer.steps_of_step uuid hs with
  | dispatch hrunning hidle hd =>
    obtain rfl : t = _ := hself
    rw [hidle] at hmem
    cases hmem
  | call op hidle hloop =>
    obtain rfl : t = _ := hself
    rw [hidle] at hmem
    cases hmem
  | callback op hold =>
    obtain rfl : t = _ := hself
    left
    rw [TcpServer.setStack_self, ← hold]
    exact List.mem_cons_of_mem _ hmem
  | @returns _ event rest hold =>
    obtain rfl : t = _ := hself
    left
    rw [hold] at hmem
    rw [TcpServer.setStack_self]
    exact (List.mem_cons.mp hmem).resolve_left (hlistener event)
  | @caught _ event rest hold hframes =>
    obtain rfl : t = _ := hself
    left
    rw [hold] at hmem
    rw [TcpServer.setStack_self]
    exact mem_unwind hcatches ((List.mem_cons.mp hmem).resolve_left (hlistener event))
  | @escapes _ event rest hold hframes =>
    obtain rfl : t = _ := hself
    rw [hold] at hmem
    have hcaught : frame ∈ TcpServer.unwind rest :=
      mem_unwind hcatches ((List.mem_cons.mp hmem).resolve_left (hlistener event))
    rw [hframes] at hcaught
    cases hcaught
  | @advance _ first rest _ hold hadvance =>
    obtain rfl : t = _ := hself
    rw [hold] at hmem
    rcases List.mem_cons.mp hmem with rfl | hbelow
    · exact Or.inr ⟨rfl, rest, hold⟩
    · exact Or.inl (advance_below hadvance hbelow)

/-- A call that is about to post a close routine posts it. -/
theorem step_post {loop t : T} {s s' : TcpServer T U} {a : Action T U} {c : Connection}
    (hmem : .post c ∈ s.stack t) (hs : TcpServer.step uuid loop s a = some s') :
    .post c ∈ s'.stack t ∨ c ∈ s'.posted := by
  rcases step_catching rfl hmem hs with hkept | ⟨rfl, rest, hold⟩
  · exact Or.inl hkept
  · simp only [TcpServer.step, hold] at hs
    cases hs
    exact Or.inr (List.mem_append_right _ (List.mem_singleton_self c))

/-- A posted close routine stays posted until the loop runs it. -/
theorem step_posted {loop : T} {s s' : TcpServer T U} {a : Action T U} {c : Connection}
    (hmem : c ∈ s.posted) (hs : TcpServer.step uuid loop s a = some s') :
    c ∈ s'.posted ∨ closes s a = some c := by
  cases TcpServer.steps_of_step uuid hs with
  | dispatch hrunning hidle hd =>
    cases hd with
    | closure hposted =>
      rw [hposted] at hmem
      rcases List.mem_cons.mp hmem with rfl | hmem
      · exact Or.inr (by simp [closes, hposted])
      · exact Or.inl hmem
    | _ => exact Or.inl hmem
  | call _ _ _ | callback _ _ | returns _ | caught _ _ | escapes _ _ => exact Or.inl hmem
  | advance hold hadvance =>
    left
    rcases advance_posted hadvance with heq | ⟨d, -, heq⟩
    · rw [heq]
      exact hmem
    · rw [heq]
      exact List.mem_append_left _ hmem

theorem tells_post {loop : T} {s s' : TcpServer T U} {a : Action T U} {c : Connection}
    (htells : tells s a = some c) (hs : TcpServer.step uuid loop s a = some s') :
    .post c ∈ s'.stack (a.thread loop) := by
  cases TcpServer.steps_of_step uuid hs with
  | @advance t frame rest s' hold hadvance =>
    simp only [tells, hold] at htells
    split at htells
    · rename_i d tail heq
      cases heq
      split at htells
      · cases htells
        cases hadvance
        rw [Action.thread, TcpServer.setStack_self]
        exact List.mem_append_right _ (List.mem_cons_self ..)
      · cases htells
    · cases htells
  | _ => cases htells

/-- `tcp_connection::stop` of a connection of `told` is about to post the close routine, or it has
been posted, or it has run. -/
def Posting (s : TcpServer T U) (told closed : Connection → Prop) : Prop :=
  ∀ c, told c → (∃ t, .post c ∈ s.stack t) ∨ c ∈ s.posted ∨ closed c

theorem Posting.step {loop : T} {s s' : TcpServer T U} {told closed : Connection → Prop}
    {a : Action T U} (h : Posting s told closed) (hs : TcpServer.step uuid loop s a = some s') :
    Posting s' (fun c => told c ∨ tells s a = some c) fun c => closed c ∨ closes s a = some c := by
  rintro c (htold | htells)
  · rcases h c htold with ⟨t, ht⟩ | hposted | hclosed
    · rcases step_post ht hs with hpost | hposted
      · exact Or.inl ⟨t, hpost⟩
      · exact Or.inr (Or.inl hposted)
    · rcases step_posted hposted hs with hposted | hcloses
      · exact Or.inr (Or.inl hposted)
      · exact Or.inr (Or.inr (Or.inr hcloses))
    · exact Or.inr (Or.inr (Or.inl hclosed))
  · exact Or.inl ⟨a.thread loop, tells_post htells hs⟩

end Diginext.Server
