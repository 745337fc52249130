import LinuxPractice.Server.SelectBooks

namespace LinuxPractice.SelectServer

open Echo (Byte MAXLINE)

/-- What is known inside a turn of the loop: nready counts what is left to do, and none of
it would block. -/
def TurnInv (listenfd : Nat) (s : State) : Prop :=
  match s.pc with
  | .select => True
  | .listening t => t.rset ⊆ s.allset ∧ t.nready = t.rset.card ∧ 0 < t.nready ∧
      ∀ fd ∈ t.rset, s.ready listenfd fd
  | .scan i t => t.nready = (expecting s.client i t.rset).card ∧ 0 < t.nready ∧
      ∀ fd ∈ expecting s.client i t.rset, Waiting (s.conns fd)
  | .read i fd t => s.client[i]? = some (some fd) ∧ fd ∈ t.rset ∧ Waiting (s.conns fd) ∧
      t.nready = (expecting s.client (i + 1) t.rset).card + 1 ∧
      ∀ fd ∈ expecting s.client (i + 1) t.rset, Waiting (s.conns fd)
  | .writen i fd _ t => s.client[i]? = some (some fd) ∧
      t.nready = (expecting s.client (i + 1) t.rset).card + 1 ∧
      ∀ fd ∈ expecting s.client (i + 1) t.rset, Waiting (s.conns fd)
  | .errQuit => False

structure Inv (listenfd : Nat) (s : State) : Prop where
  books : Books listenfd s
  turn : TurnInv listenfd s

section Peer

/-- What a client does leaves a readable connection readable. -/
theorem PeerMove.readable {c c' : Conn} (h : PeerMove c c') (hr : c.up.Readable) : c'.up.Readable := by
  cases h with
  | send bytes hc =>
    rcases hr with hr | ⟨hcl, -⟩
    · exact .inl hr
    · rw [hc] at hcl
      cases hcl
  | deliver k up hd => exact hr.deliver hd
  | shutdown =>
    rcases hr with hr | ⟨-, hp⟩
    · exact .inl hr
    · exact .inr ⟨rfl, hp⟩

theorem waiting_update {conns : Nat → Option Conn} {fd x : Nat} {o : Option Conn}
    (h : Waiting (conns x)) (ho : x = fd → Waiting o) : Waiting (Function.update conns fd o x) := by
  by_cases hx : x = fd
  · subst hx
    rw [Function.update_self]
    exact ho rfl
  · rw [Function.update_of_ne hx]
    exact h

end Peer

section Turn

variable {listenfd : Nat} {s s' : State} {l : Label}

/-- A step outside main leaves what is ready ready. -/
theorem TurnInv.mono (h : TurnInv listenfd s) (hpc : s'.pc = s.pc) (hclient : s'.client = s.client)
    (hall : s'.allset = s.allset) (hq : s.queue ≤ s'.queue)
    (hw : ∀ x, Waiting (s.conns x) → Waiting (s'.conns x)) : TurnInv listenfd s' := by
  unfold TurnInv at h ⊢
  rw [hpc, hclient, hall]
  split
  · trivial
  · rename_i t heq
    rw [heq] at h
    obtain ⟨hsub, hn, hpos, hready⟩ := h
    refine ⟨hsub, hn, hpos, fun fd hfd => ?_⟩
    have hr := hready fd hfd
    unfold State.ready at hr ⊢
    split
    · rw [if_pos ‹_›] at hr
      exact Nat.lt_of_lt_of_le hr hq
    · rw [if_neg ‹_›] at hr
      exact hw fd hr
  · rename_i i t heq
    rw [heq] at h
    exact ⟨h.1, h.2.1, fun fd hfd => hw fd (h.2.2 fd hfd)⟩
  · rename_i i fd t heq
    rw [heq] at h
    obtain ⟨hi, hin, hr, hn, hrest⟩ := h
    exact ⟨hi, hin, hw fd hr, hn, fun x hx => hw x (hrest x hx)⟩
  · rename_i i fd rest t heq
    rw [heq] at h
    exact ⟨h.1, h.2.1, fun x hx => hw x (h.2.2 x hx)⟩
  · rename_i heq
    rw [heq] at h
    exact h

theorem waiting_setConn {fd x : Nat} {c c' : Conn} (hc : s.conns fd = some c) (pc : Pc)
    (hr : c.up.Readable → c'.up.Readable) (h : Waiting (s.conns x)) :
    Waiting ((s.setConn fd c' pc).conns x) := by
  refine waiting_update h fun hx => ?_
  subst hx
  rw [hc] at h
  exact hr h

/-- What one client does not read is not touched for the others. -/
theorem waiting_others (hb : Books listenfd s) {i fd x : Nat} {rset : Finset Nat} (o : Option Conn)
    (hi : s.client[i]? = some (some fd)) (hx : x ∈ expecting s.client (i + 1) rset)
    (h : Waiting (s.conns x)) : Waiting (Function.update s.conns fd o x) := by
  refine waiting_update h fun he => ?_
  subst he
  exact absurd hx (not_expecting hb.distinct hi)

/-- After one client is served the count is right again. -/
theorem turnInv_next {i : Nat} {t : Turn} (hpc : s.pc = t.next i)
    (hn : t.nready = (expecting s.client (i + 1) t.rset).card + 1)
    (hw : ∀ fd ∈ expecting s.client (i + 1) t.rset, Waiting (s.conns fd)) : TurnInv listenfd s := by
  unfold Turn.next at hpc
  split at hpc
  · simp only [TurnInv, hpc]
  · simp only [TurnInv, hpc]
    exact ⟨by omega, by omega, hw⟩

/-- The loop over the clients begins with all that was reported but listenfd. -/
theorem Books.expecting_zero (h : Books listenfd s) {rset : Finset Nat} (hsub : rset ⊆ s.allset) :
    expecting s.client 0 rset = rset.erase listenfd := by
  ext x
  rw [expecting, List.drop_zero, Finset.mem_filter, Finset.mem_erase]
  constructor
  · rintro ⟨hx, hc⟩
    exact ⟨(h.fds x hc).1, hx⟩
  · rintro ⟨hne, hx⟩
    exact ⟨hx, ((h.allset x).mp (hsub hx)).resolve_left hne⟩

theorem accept_eq (hb : Books listenfd s) (hl : listenfd < FD_SETSIZE) (t : Turn) (fd : Nat) :
    (s.accept t fd).pc =
        (if t.nready - 1 ≤ 0 then .select else .scan 0 { t with nready := t.nready - 1 }) ∧
      (s.accept t fd).allset = insert fd s.allset ∧
      (s.accept t fd).conns = Function.update s.conns fd (some ⟨[], .empty, []⟩) ∧
      (s.accept t fd).gone = s.gone := by
  simp only [State.accept, if_neg (Nat.ne_of_lt (hb.findIdx_lt hl)), and_self]

theorem Inv.start (listenfd : Fin FD_SETSIZE) : Inv listenfd (.start listenfd) where
  books := by
    have hno : ∀ fd, some fd ∉ List.replicate FD_SETSIZE (none : Option Nat) := by
      intro fd hfd
      cases List.eq_of_mem_replicate hfd
    refine ⟨List.length_replicate, Nat.le_refl _, fun fd => ?_, ?_, fun fd => ?_, ?_, ?_⟩
    · rw [State.start, Finset.mem_singleton]
      exact ⟨.inl, fun h => h.resolve_right (hno fd)⟩
    · intro i j fd hi
      exact absurd (List.mem_of_getElem? hi) (hno fd)
    · exact ⟨fun h => absurd h (hno fd), nofun⟩
    · intro fd hfd
      exact absurd hfd (hno fd)
    · intro i fd hi
      exact absurd (List.mem_of_getElem? hi) (hno fd)
  turn := trivial

theorem Inv.step (hl : listenfd < FD_SETSIZE) (h : Inv listenfd s) (hm : Move listenfd s l s') :
    Inv listenfd s' := by
  have hb := h.books
  have ht := h.turn
  cases hm with
  | select t hpc hrset hne hn =>
    refine ⟨hb.goto _ _, ?_⟩
    have hpos : 0 < t.rset.card := Finset.card_pos.mpr (Finset.nonempty_iff_ne_empty.mpr hne)
    refine ⟨?_, hn, by omega, fun fd hfd => ?_⟩
    · rw [hrset]
      exact Finset.filter_subset _ _
    · rw [hrset, Finset.mem_filter] at hfd
      exact hfd.2.2
  | accept t fd hpc hin hlt hne hnone =>
    have hb' := hb.accept hl t hlt hne hnone
    obtain ⟨hpc', hall, hconns, -⟩ := accept_eq hb hl t fd
    refine ⟨hb', ?_⟩
    rw [TurnInv, hpc] at ht
    obtain ⟨hsub, hn, hpos, hready⟩ := ht
    have hsub' : t.rset ⊆ (s.accept t fd).allset := by
      rw [hall]
      exact hsub.trans (Finset.subset_insert _ _)
    have hexp := hb'.expecting_zero hsub'
    by_cases hlast : t.nready - 1 ≤ 0
    · rw [if_pos hlast] at hpc'
      simp only [TurnInv, hpc']
    · rw [if_neg hlast] at hpc'
      simp only [TurnInv, hpc', hexp, hconns]
      refine ⟨?_, by omega, fun x hx => ?_⟩
      · have hcard := Finset.card_erase_add_one hin
        omega
      · obtain ⟨hx₁, hx₂⟩ := Finset.mem_erase.mp hx
        have hr := hready x hx₂
        rw [State.ready, if_neg hx₁] at hr
        refine waiting_update hr fun he => ?_
        subst he
        rw [hnone] at hr
        cases hr
  | noAccept t hpc hin =>
    refine ⟨hb.goto _ _, ?_⟩
    rw [TurnInv, hpc] at ht
    obtain ⟨hsub, hn, hpos, hready⟩ := ht
    have hexp : expecting s.client 0 t.rset = t.rset := by
      rw [hb.expecting_zero hsub, Finset.erase_eq_of_notMem hin]
    refine ⟨?_, hpos, fun fd hfd => ?_⟩
    · simp only [hexp]
      exact hn
    · simp only [hexp] at hfd
      have hr := hready fd hfd
      have hne : fd ≠ listenfd := by
        rintro rfl
        exact hin hfd
      rw [State.ready, if_neg hne] at hr
      exact hr
  | visit i fd t hpc hfd hin =>
    refine ⟨hb.goto _ _, ?_⟩
    rw [TurnInv, hpc] at ht
    obtain ⟨hn, hpos, hw⟩ := ht
    rw [expecting_visit hfd hin, Finset.card_insert_of_notMem (not_expecting hb.distinct hfd)] at hn
    rw [expecting_visit hfd hin] at hw
    exact ⟨hfd, hin, hw fd (Finset.mem_insert_self _ _), by push_cast at hn; exact hn,
      fun x hx => hw x (Finset.mem_insert_of_mem hx)⟩
  | skip i t hpc hno =>
    refine ⟨hb.goto _ _, ?_⟩
    simp only [TurnInv, hpc, expecting_skip hno] at ht
    exact ht
  | finish i t hpc hi =>
    exact ⟨hb.goto _ _, trivial⟩
  | hangup k i fd t c up hpc hc hr =>
    rw [TurnInv, hpc] at ht
    obtain ⟨hi, hin, hread, hn, hw⟩ := ht
    have hset : expecting (s.hangup i fd c (t.next i)).client (i + 1) t.rset =
        expecting s.client (i + 1) t.rset := expecting_set none
    refine ⟨hb.hangup hi c _, turnInv_next rfl (hset ▸ hn) fun x hx => ?_⟩
    rw [hset] at hx
    exact waiting_others hb none hi hx (hw x hx)
  | receive k i fd t c bytes up hpc hc hne hr =>
    rw [TurnInv, hpc] at ht
    obtain ⟨hi, hin, hread, hn, hw⟩ := ht
    exact ⟨hb.setConn hc _, hi, hn, fun x hx => waiting_others hb _ hi hx (hw x hx)⟩
  | write k i fd rest t c hpc hc =>
    rw [TurnInv, hpc] at ht
    obtain ⟨hi, hn, hw⟩ := ht
    refine ⟨hb.setConn hc _, ?_⟩
    by_cases hend : rest.drop k = []
    · rw [if_pos hend]
      exact turnInv_next rfl hn fun x hx => waiting_others hb _ hi hx (hw x hx)
    · rw [if_neg hend]
      exact ⟨hi, hn, fun x hx => waiting_others hb _ hi hx (hw x hx)⟩
  | connect =>
    refine ⟨hb.goto _ _, ?_⟩
    exact ht.mono rfl rfl rfl (Nat.le_succ _) fun _ hx => hx
  | peer _ fd c c' hio hs hc hp =>
    refine ⟨hb.setConn hc _, ht.mono rfl rfl rfl (Nat.le_refl _) fun x hx => ?_⟩
    exact waiting_setConn hc _ hp.readable hx

end Turn

theorem server_inv {listenfd : Fin FD_SETSIZE} {s : State} (h : (server listenfd).Reachable s) :
    Inv listenfd s :=
  Machine.Reachable.invariant (Inv.start listenfd)
    (fun _ _ _ hi hs => hi.step listenfd.isLt (move_of_step hs)) h

section Rounds

variable {listenfd : Nat} {s s' : State} {l : Label}

/-- The clients that are still to be served in the present turn. -/
def State.due (listenfd : Nat) (s : State) : Finset Nat :=
  match s.pc with
  | .listening t => t.rset.erase listenfd
  | .scan i t => expecting s.client i t.rset
  | .read i _ t => expecting s.client i t.rset
  | .writen i _ _ t => expecting s.client (i + 1) t.rset
  | _ => ∅

/-- The client that a step reads from. -/
def served (s : State) (l : Label) : Option Nat :=
  match s.pc, l with
  | .read _ fd _, .io _ => some fd
  | _, _ => none

theorem due_next {i : Nat} {t : Turn} (hpc : s.pc = t.next i)
    (hn : t.nready = (expecting s.client (i + 1) t.rset).card + 1) :
    s.due listenfd = expecting s.client (i + 1) t.rset := by
  unfold Turn.next at hpc
  split at hpc
  · simp only [State.due, hpc]
    refine (Finset.card_eq_zero.mp ?_).symm
    omega
  · simp only [State.due, hpc]

/-- A step of a turn takes nothing from what is due but the client it reads from. -/
theorem due_step (hl : listenfd < FD_SETSIZE) (h : Inv listenfd s) (hm : Move listenfd s l s')
    (hsel : l ≠ .select) :
    (served s l = none ∧ s'.due listenfd = s.due listenfd) ∨
    ∃ fd, served s l = some fd ∧ fd ∉ s'.due listenfd ∧
      s.due listenfd = insert fd (s'.due listenfd) := by
  have hb := h.books
  have ht := h.turn
  cases hm with
  | select t hpc hrset hne hn => exact absurd rfl hsel
  | accept t fd hpc hin hlt hne hnone =>
    have hb' := hb.accept hl t hlt hne hnone
    obtain ⟨hpc', hall, -⟩ := accept_eq hb hl t fd
    rw [TurnInv, hpc] at ht
    obtain ⟨hsub, hn, -⟩ := ht
    have hsub' : t.rset ⊆ (s.accept t fd).allset := by
      rw [hall]
      exact hsub.trans (Finset.subset_insert _ _)
    have hexp := hb'.expecting_zero hsub'
    have hcard := Finset.card_erase_add_one hin
    refine .inl ⟨by simp only [served, hpc], ?_⟩
    by_cases hlast : t.nready - 1 ≤ 0
    · rw [if_pos hlast] at hpc'
      simp only [State.due, hpc', hpc]
      refine (Finset.card_eq_zero.mp ?_).symm
      omega
    · rw [if_neg hlast] at hpc'
      simp only [State.due, hpc', hpc, hexp]
  | noAccept t hpc hin =>
    rw [TurnInv, hpc] at ht
    refine .inl ⟨by simp only [served, hpc], ?_⟩
    simp only [State.due, hpc, hb.expecting_zero ht.1]
  | visit i fd t hpc hfd hin =>
    refine .inl ⟨by simp only [served, hpc], ?_⟩
    simp only [State.due, hpc]
  | skip i t hpc hno =>
    refine .inl ⟨by simp only [served, hpc], ?_⟩
    simp only [State.due, hpc, expecting_skip hno]
  | finish i t hpc hi =>
    refine .inl ⟨by simp only [served, hpc], ?_⟩
    simp only [State.due, hpc, expecting_beyond hb.index hi]
  | hangup k i fd t c up hpc hc hr =>
    rw [TurnInv, hpc] at ht
    obtain ⟨hi, hin, hread, hn, hw⟩ := ht
    have hset : expecting (s.hangup i fd c (t.next i)).client (i + 1) t.rset =
        expecting s.client (i + 1) t.rset := expecting_set none
    have hdue : (s.hangup i fd c (t.next i)).due listenfd = expecting s.client (i + 1) t.rset :=
      (due_next rfl (hset ▸ hn)).trans hset
    refine .inr ⟨fd, by simp only [served, hpc], ?_, ?_⟩
    · rw [hdue]
      exact not_expecting hb.distinct hi
    · rw [hdue]
      simp only [State.due, hpc, expecting_visit hi hin]
  | receive k i fd t c bytes up hpc hc hne hr =>
    rw [TurnInv, hpc] at ht
    obtain ⟨hi, hin, hread, hn, hw⟩ := ht
    refine .inr ⟨fd, by simp only [served, hpc], not_expecting hb.distinct hi, ?_⟩
    simp only [State.due, hpc, expecting_visit hi hin]
    rfl
  | write k i fd rest t c hpc hc =>
    rw [TurnInv, hpc] at ht
    obtain ⟨hi, hn, hw⟩ := ht
    refine .inl ⟨by simp only [served, hpc], ?_⟩
    have hdue : s.due listenfd = expecting s.client (i + 1) t.rset := by simp only [State.due, hpc]
    rw [hdue]
    by_cases hend : rest.drop k = []
    · rw [if_pos hend]
      exact due_next rfl hn
    · rw [if_neg hend]
      rfl
  | connect =>
    refine .inl ⟨?_, rfl⟩
    unfold served
    split
    · contradiction
    · rfl
  | peer _ fd c c' hio hs hc hp =>
    refine .inl ⟨?_, rfl⟩
    unfold served
    split
    · exact absurd rfl (hio _)
    · rfl

end Rounds

/-- The clients read from in a turn and those due at its end are the ones due at its start,
and none is read from twice. -/
theorem served_run {listenfd : Fin FD_SETSIZE} {s s' : State} {tr : List Label}
    (hreach : (server listenfd).Reachable s) (hr : (server listenfd).run s tr = some s')
    (hsel : ∀ l ∈ tr, l ≠ .select) :
    ((server listenfd).log served s tr).Nodup ∧
      (∀ fd ∈ (server listenfd).log served s tr, fd ∉ s'.due listenfd) ∧
      ∀ fd, fd ∈ s.due listenfd ↔
        fd ∈ (server listenfd).log served s tr ∨ fd ∈ s'.due listenfd := by
  refine (server listenfd).run_induction
    (P := fun tr s' => (∀ l ∈ tr, l ≠ .select) → ((server listenfd).log served s tr).Nodup ∧
      (∀ fd ∈ (server listenfd).log served s tr, fd ∉ s'.due listenfd) ∧
      ∀ fd, fd ∈ s.due listenfd ↔
        fd ∈ (server listenfd).log served s tr ∨ fd ∈ s'.due listenfd) ?_ ?_ hr hsel
  · intro _
    refine ⟨List.nodup_nil, nofun, fun fd => ?_⟩
    exact ⟨.inr, fun h => h.resolve_left List.not_mem_nil⟩
  · intro tr u l v hu ih hs hsel
    obtain ⟨hnodup, hout, hdue⟩ := ih fun k hk => hsel k (List.mem_append_left _ hk)
    have hl : l ≠ .select := hsel l (List.mem_append_right _ List.mem_cons_self)
    have hinv := server_inv (hreach.run hu)
    rw [Machine.log_snoc _ _ hu hs]
    rcases due_step listenfd.isLt hinv (move_of_step hs) hl with ⟨hno, heq⟩ | ⟨fd, hfd, hnew, heq⟩
    · rw [hno, heq, Option.toList_none, List.append_nil]
      exact ⟨hnodup, hout, hdue⟩
    · rw [heq] at hout hdue
      rw [hfd, Option.toList_some]
      refine ⟨?_, fun x hx => ?_, fun x => ?_⟩
      · rw [List.nodup_append]
        refine ⟨hnodup, List.nodup_singleton fd, fun x hx y hy hxy => ?_⟩
        rw [List.mem_singleton] at hy
        subst hxy hy
        exact hout x hx (Finset.mem_insert_self _ _)
      · rcases List.mem_append.mp hx with hx | hx
        · exact fun hmem => hout x hx (Finset.mem_insert_of_mem hmem)
        · rw [List.mem_singleton] at hx
          exact hx ▸ hnew
      · rw [hdue, Finset.mem_insert, List.mem_append, List.mem_singleton, or_assoc]

/-- A client connects and sends a byte; then main is told of it. -/
def oneClient : List Label := [.connect, .select, .accept 4, .send 4 [104], .deliver 4 1, .select]

/-- Select watches exactly the listening socket and the open connections, the loop over the
clients meets each of them once, client never runs full, and neither Accept nor Read is
called when it would block. -/
theorem select_server_books (listenfd : Fin FD_SETSIZE) (s : State)
    (hreach : (server listenfd).Reachable s) :
    (∀ fd, (fd ∈ s.allset ∧ fd < s.maxfd + 1) ↔ fd = listenfd ∨ (s.conns fd).isSome = true) ∧
    (∀ fd, (s.conns fd).isSome = true ↔
      ∃! i : Nat, (i : Int) ≤ s.maxi ∧ s.client[i]? = some (some fd)) ∧
    (∀ t, s.pc = .listening t → (listenfd : Nat) ∈ t.rset → 0 < s.queue) ∧
    (∀ i fd t, s.pc = .read i fd t → ∃ k s', step listenfd s (.io k) = some s') ∧
    s.pc ≠ .errQuit := by
  obtain ⟨hb, ht⟩ := server_inv hreach
  refine ⟨fun fd => ?_, fun fd => ?_, fun t hpc hin => ?_, fun i fd t hpc => ?_, fun hpc => ?_⟩
  · rw [hb.allset, hb.opened]
    refine and_iff_left_of_imp fun h => ?_
    rcases h with rfl | h
    · exact Nat.lt_succ_of_le hb.listen
    · exact Nat.lt_succ_of_le (hb.fds fd ((hb.opened fd).mpr h)).2.2
  · rw [← hb.opened]
    constructor
    · intro hmem
      obtain ⟨i, hi⟩ := List.mem_iff_getElem?.mp hmem
      exact ⟨i, ⟨hb.index i fd hi, hi⟩, fun j hj => hb.distinct j i fd hj.2 hi⟩
    · rintro ⟨i, ⟨-, hi⟩, -⟩
      exact List.mem_of_getElem? hi
  · rw [TurnInv, hpc] at ht
    have hr := ht.2.2.2 listenfd hin
    rw [State.ready, if_pos rfl] at hr
    exact hr
  · rw [TurnInv, hpc] at ht
    have hw := ht.2.2.1
    cases hc : s.conns fd with
    | none =>
      rw [hc] at hw
      cases hw
    | some c =>
      rw [hc] at hw
      obtain ⟨k, o, ho⟩ := Channel.readable_enabled (show 0 < MAXLINE by decide) hw
      refine ⟨k, ?_⟩
      simp only [step, hpc, hc, ho, Option.bind_some, Option.map_some]
      exact ⟨_, rfl⟩
  · rw [TurnInv, hpc] at ht
    exact ht

theorem select_server_books_one : ∃ s, (server ⟨3, by decide⟩).Reachable s ∧
    (s.conns 4).isSome = true ∧ 4 ∈ s.allset ∧ s.pc ≠ .errQuit := by
  refine ⟨_, ⟨oneClient, rfl⟩, rfl, ?_, ?_⟩
  · exact (((select_server_books ⟨3, by decide⟩ _ ⟨oneClient, rfl⟩).1 4).mpr (.inr rfl)).1
  · exact (select_server_books ⟨3, by decide⟩ _ ⟨oneClient, rfl⟩).2.2.2.2

/-- Between two calls of Select the server reads once from every client that was reported
ready, and from no other. -/
theorem select_server_serves_all (listenfd : Fin FD_SETSIZE) (s s' : State) (t : Turn)
    (tr : List Label) (hreach : (server listenfd).Reachable s) (hpc : s.pc = .listening t)
    (hr : (server listenfd).run s tr = some s') (hsel : ∀ l ∈ tr, l ≠ .select)
    (hpc' : s'.pc = .select) :
    ((server listenfd).log served s tr).Nodup ∧
      ∀ fd, fd ∈ (server listenfd).log served s tr ↔ fd ∈ t.rset ∧ fd ≠ listenfd := by
  obtain ⟨hnodup, -, hdue⟩ := served_run hreach hr hsel
  refine ⟨hnodup, fun fd => ?_⟩
  have hstart : s.due listenfd = t.rset.erase listenfd := by simp only [State.due, hpc]
  have hend : s'.due listenfd = ∅ := by simp only [State.due, hpc']
  have hmem := hdue fd
  rw [hstart, hend, Finset.mem_erase, or_iff_left (Finset.notMem_empty fd)] at hmem
  rw [← hmem]
  exact and_comm

theorem select_server_serves_one : ∃ s s' t,
    (server ⟨3, by decide⟩).Reachable s ∧ s.pc = .listening t ∧
    (server ⟨3, by decide⟩).run s [.go, .go, .io 1, .io 1] = some s' ∧ s'.pc = .select ∧
    ((server ⟨3, by decide⟩).log served s [.go, .go, .io 1, .io 1]).Nodup ∧
    (4 ∈ (server ⟨3, by decide⟩).log served s [.go, .go, .io 1, .io 1] ↔ 4 ∈ t.rset ∧ 4 ≠ 3) := by
  refine ⟨_, _, _, ⟨oneClient, rfl⟩, rfl, rfl, rfl, ?_⟩
  have h := select_server_serves_all ⟨3, by decide⟩ _ _ _ [.go, .go, .io 1, .io 1] ⟨oneClient, rfl⟩
    rfl rfl (by simp) rfl
  exact ⟨h.1, h.2 4⟩

end LinuxPractice.SelectServer
