import Shaunos.Net.UdpInput

/-!
# Which sockets get a datagram

Reference: `Kernel/netinet/udp_usrreq.c` (`udp_input`), `Kernel/net/uipc_socket2.c` (`sbappendaddr`), `Kernel/mbuf.c`
(`_m_copym`).

A broadcast goes to each socket that it is for: the last one gets the packet, and those before it get copies. For one
socket the packet header is shortened like the first mbuf, and for many it is not.

* `udpCopy_spec`, `udpAppend_spec` — what one socket gets;
* `castLoop_eq`, `udpCast_spec` — which sockets get a broadcast;
* `udpInput_rightIff` — when sockets get just the data of good datagrams.
-/

namespace Shaunos.Net

section

variable {κ ι : Type*} {c d next : List (ClMbuf κ)} {m : ClMbuf κ} {mem : ℕ}

/-! ## The copies -/

/-- Chains that differ in the counters of clusters only. -/
def SameContent (c d : List (ClMbuf κ)) : Prop := c.map ClMbuf.content = d.map ClMbuf.content

theorem SameContent.toMbuf (h : SameContent c d) : c.map ClMbuf.toMbuf = d.map ClMbuf.toMbuf := by
  have := congrArg (List.map Prod.fst) h
  rwa [List.map_map, List.map_map] at this

theorem SameContent.clBytes_eq (h : SameContent c d) : clBytes c = clBytes d := congrArg chainBytes h.toMbuf

theorem SameContent.length_eq (h : SameContent c d) : c.length = d.length := by
  simpa using congrArg List.length h

theorem SameContent.chainHdr_eq (h : SameContent c d) : chainHdr c = chainHdr d := by
  have := congrArg (fun l => l.head?.bind Mbuf.mPkthdr) h.toMbuf
  cases c <;> cases d <;> simp_all [chainHdr, ClMbuf.toMbuf]

theorem SameContent.copyFrom (h : SameContent c d) : SameContent (copyFrom c) (copyFrom d) := by
  induction c generalizing d with
  | nil =>
      obtain rfl : d = [] := List.map_eq_nil_iff.mp h.symm
      rfl
  | cons m next ih =>
      cases d with
      | nil => cases h
      | cons x rest =>
          obtain ⟨hm, hnext⟩ := List.cons.inj h
          have hbytes : m.bytes = x.bytes := congrArg (fun p => p.1.bytes) hm
          have hnil : next = [] ↔ rest = [] := by
            rw [← List.length_eq_zero_iff, ← List.length_eq_zero_iff, SameContent.length_eq hnext]
          have hiff : m.mLen = 0 ∧ next ≠ [] ↔ x.mLen = 0 ∧ rest ≠ [] := by
            rw [ClMbuf.mLen, ClMbuf.mLen, hbytes, Ne, Ne, hnil]
          rw [Net.copyFrom, Net.copyFrom]
          by_cases hempty : m.mLen = 0 ∧ next ≠ []
          · rw [if_pos hempty, if_pos (hiff.mp hempty)]
            exact ih hnext
          · rw [if_neg hempty, if_neg fun hx => hempty (hiff.mpr hx)]
            exact h

theorem mGetptr_zero (hc : c ≠ []) :
    ∃ front, mGetptr 0 c = some (front, copyFrom c, 0) ∧ c = front ++ copyFrom c ∧ clBytes front = [] := by
  induction c with
  | nil => exact absurd rfl hc
  | cons m next ih =>
      rw [mGetptr, copyFrom]
      by_cases hpos : 0 < m.mLen
      · rw [if_pos hpos, if_neg fun h => hpos.ne' h.1]
        exact ⟨[], rfl, rfl, rfl⟩
      · have hzero : m.mLen = 0 := by omega
        rw [if_neg hpos]
        by_cases hnext : next = []
        · rw [if_pos hnext, hzero, if_pos rfl, if_neg fun h => h.2 hnext]
          exact ⟨[], rfl, rfl, rfl⟩
        · obtain ⟨front, hptr, heq, hnil⟩ := ih hnext
          rw [if_neg hnext, hzero, hptr, if_pos ⟨rfl, hnext⟩]
          refine ⟨m :: front, rfl, ?_, ?_⟩
          · rw [List.cons_append, ← heq]
          · rw [clBytes_cons, hnil, List.append_nil]
            exact List.length_eq_zero_iff.mp hzero

theorem copyFrom_ne_nil (hc : c ≠ []) : copyFrom c ≠ [] := by
  induction c with
  | nil => exact absurd rfl hc
  | cons m next ih =>
      rw [copyFrom]
      split_ifs with hempty
      · exact ih hempty.2
      · exact List.cons_ne_nil m next

theorem mCopymNeeds_all (offset : ℕ) (c : List (ClMbuf κ)) : mCopymNeeds mCOPYALL offset c = c.length := by
  induction c generalizing offset with
  | nil => rfl
  | cons m next ih =>
      rw [mCopymNeeds, if_neg (by decide), if_neg (not_not.mpr rfl), ih, List.length_cons]

open CountInv (mCopymLoop_nil mCopymLoop_succ mCopymLoop_top)

/-- With `M_COPYALL` all bytes are copied. -/
theorem clBytes_copyAll (hmem : c.length ≤ mem) (hle : ∀ m ∈ c, m.mLen ≤ mCOPYALL) (copyhdr : Bool) :
    clBytes (mCopymLoop mem mCOPYALL 0 copyhdr c).2.1 = clBytes c := by
  induction c generalizing mem copyhdr with
  | nil => rw [mCopymLoop_nil]
  | cons m next ih =>
      obtain ⟨mem, rfl⟩ := Nat.exists_eq_add_of_le' (Nat.one_le_of_lt hmem)
      have hm : m.mLen ≤ mCOPYALL := hle m List.mem_cons_self
      rw [mCopymLoop_succ (by decide), clBytes_cons, clBytes_cons, copy_bytes_zero (.inr rfl)]
      rw [show CountInv.copyRest m mCOPYALL 0 = mCOPYALL from if_neg (not_not.mpr rfl),
        ih (Nat.le_of_succ_le_succ hmem) fun x hx => hle x (List.mem_cons_of_mem m hx), List.drop_zero, Nat.sub_zero,
        Nat.min_eq_right hm, List.take_of_length_le]
      exact le_rfl

variable [DecidableEq κ] {C : Finset κ}

/-- A copy that there is memory for. -/
theorem udpCopy_spec (hne : c ≠ []) (hhdr : chainHdr c ≠ none) (hmem : (copyFrom c).length ≤ mem) :
    (chainHdr (copyFrom c) = none → udpCopy C c mem = none) ∧
      ∀ l ∈ chainHdr (copyFrom c), ∃ c' n, udpCopy C c mem = some (c', n) ∧ SameContent c' c ∧ n ≠ [] ∧
        chainHdr n = some l ∧ ((clBytes c).length ≤ mCOPYALL → clBytes n = clBytes c) := by
  obtain ⟨front, hptr, hsplit, hfront⟩ := mGetptr_zero hne
  have hcopied : clBytes (copyFrom c) = clBytes c := by
    conv_rhs => rw [hsplit, clBytes_append, hfront, List.nil_append]
  cases hfrom : copyFrom c with
  | nil => exact absurd hfrom (copyFrom_ne_nil hne)
  | cons x rest =>
      rw [hfrom] at hptr hmem hcopied hsplit
      have hcopy : udpCopy C c mem = if x.mPkthdr = none then none else
          some (front ++ (mCopymLoop mem mCOPYALL 0 true (x :: rest)).1,
            (mCopymLoop mem mCOPYALL 0 true (x :: rest)).2.1) := by
        have heq : mCopym ⟨[c], C, []⟩ 0 ((0 : ℕ) : ℤ) mCOPYALL mem =
            if true = true ∧ 0 < mCOPYALL ∧ x.mPkthdr = none then none
            else some (MbufState.push
              (MbufState.setChain ⟨[c], C, []⟩ 0 (front ++ (mCopymLoop mem mCOPYALL 0 true (x :: rest)).1))
              (mCopymLoop mem mCOPYALL 0 true (x :: rest)).2.1) := by
          refine mCopym_eq hptr (by rwa [mCopymNeeds_all]) ?_
          change true = (true && (chainHdr c).isSome)
          rw [Option.isSome_iff_ne_none.mpr hhdr, Bool.and_self]
        have hpos : 0 < mCOPYALL := by decide
        simp only [hpos, true_and] at heq
        rw [udpCopy, show mCopym ⟨[c], C, []⟩ 0 0 mCOPYALL mem = _ from heq]
        split_ifs <;> rfl
      refine ⟨fun hnone => by rw [hcopy]; exact if_pos hnone, fun l hl => ?_⟩
      have hx : x.mPkthdr = some l := hl
      obtain ⟨mem, rfl⟩ := Nat.exists_eq_add_of_le' (Nat.one_le_of_lt hmem)
      refine ⟨_, _, hcopy.trans (if_neg (by rw [hx]; simp)), ?_, ?_, ?_, fun hle => ?_⟩
      · rw [SameContent, List.map_append, content_mCopymLoop, ← List.map_append, ← hsplit]
      · rw [mCopymLoop_succ (by decide)]
        exact List.cons_ne_nil _ _
      · rw [mCopymLoop_succ (by decide), chainHdr, List.head?_cons, Option.bind_some, copy_mPkthdr, hx]
        rfl
      · rw [clBytes_copyAll hmem (fun y hy => ?_) true, hcopied]
        obtain ⟨a, b, hab⟩ := List.append_of_mem hy
        rw [← hcopied, hab, clBytes_append, clBytes_cons] at hle
        simp only [List.length_append] at hle
        rw [ClMbuf.mLen]
        omega

/-- A copy that there is no memory for. -/
theorem udpCopy_short {c' n : List (ClMbuf κ)} (hne : c ≠ []) (hmem : mem < (copyFrom c).length)
    (h : udpCopy C c mem = some (c', n)) : SameContent c' c ∧ n = [] := by
  obtain ⟨front, hptr, hsplit, -⟩ := mGetptr_zero hne
  obtain ⟨t, ht, heq⟩ := Option.map_eq_some_iff.mp h
  obtain ⟨rfl, rfl⟩ := Prod.mk.inj heq
  have hchain : MbufState.chain ⟨[c], C, []⟩ 0 = c := rfl
  rw [mCopym, if_neg (by decide), hchain] at ht
  simp only [Int.toNat_zero, hptr, Int.toNat_natCast] at ht
  split_ifs at ht with hpanic hfailed
  · obtain ⟨hnil, hother⟩ := mFreem_chain ht
    refine ⟨?_, hnil⟩
    rw [hother 0 Nat.zero_ne_one]
    change List.map _ (front ++ _) = _
    rw [List.map_append, content_mCopymLoop, ← List.map_append, ← hsplit]
  · refine absurd ((mCopymLoop_top _ _ _ _).1.mpr ?_) hfailed
    rwa [mCopymNeeds_all]

end

section

variable {κ ι : Type*} [DecidableEq κ] [DecidableEq ι] (e : UdpInEnv κ ι) {c d next : List (ClMbuf κ)}
  (asa : Sockaddr) (rcv : ι → SockBuf) {l : ℤ}

/-! ## The sockets -/

omit [DecidableEq κ] in
open Classical in
theorem udpAppend_eq (opts : List Mbuf) (mget : Bool) (i : ι) (hhdr : chainHdr c = some l) :
    ∃ m : Mbuf, m.mType = mtSONAME ∧ udpAppend asa opts mget rcv i c = .ok (if Room (rcv i) asa l opts mget then
      (true, Function.update rcv i ((rcv i).withRecord (m :: (opts ++ c.map ClMbuf.toMbuf)))) else (false, rcv)) := by
  have hhead : (c.map ClMbuf.toMbuf).head?.map Mbuf.mPkthdr = some (some l) := by
    cases c with
    | nil => cases hhdr
    | cons m next => exact congrArg some hhdr
  refine ⟨⟨mtSONAME, false, false, none, 0, asa.1⟩, rfl, ?_⟩
  rw [udpAppend, sbappendaddr, hhead]
  simp only [Option.bind_some, id_eq, Option.getD_some]
  by_cases hroom : Room (rcv i) asa l opts mget
  · rw [if_pos hroom]
    obtain ⟨hspace, hlen, rfl⟩ := hroom
    rw [if_neg hspace.not_gt, if_neg hlen.not_gt]
    rfl
  · rw [if_neg hroom]
    split_ifs with hspace hlen hmget
    · rfl
    · rfl
    · rfl
    · exact absurd ⟨not_lt.mp hspace, not_lt.mp hlen, by simpa using hmget⟩ hroom

omit [DecidableEq κ] [DecidableEq ι] in
/-- What happens to the buffer of a socket that gets a copy. -/
def CopyStep (e : UdpInEnv κ ι) (asa : Sockaddr) (c : List (ClMbuf κ)) (i : ι) (sb sb' : SockBuf) : Prop :=
  if (copyFrom c).length ≤ e.copyMem i then
    ∃ l, chainHdr (copyFrom c) = some l ∧
      ((¬ Room sb asa l [] (e.addrMem i) ∧ sb' = sb) ∨
        Room sb asa l [] (e.addrMem i) ∧ ∃ m data, m.mType = mtSONAME ∧
          ((clBytes c).length ≤ mCOPYALL → chainBytes data = clBytes c) ∧ sb' = sb.withRecord (m :: data))
  else sb' = sb

/-- A copy can be made for a socket. -/
def CopyOk (e : UdpInEnv κ ι) (c : List (ClMbuf κ)) (i : ι) : Prop :=
  chainHdr (copyFrom c) ≠ none ∧ (copyFrom c).length ≤ e.copyMem i

section

variable {c₀ : List (ClMbuf κ)} (hne : c₀ ≠ []) (hhdr : chainHdr c₀ ≠ none)
include hne hhdr

theorem castStep_spec (i : ι) (hc : SameContent c c₀) :
    (∀ s, castStep e asa (c, rcv) i = .ok s → SameContent s.1 c₀ ∧
      ∃ sb, s.2 = Function.update rcv i sb ∧ CopyStep e asa c₀ i (rcv i) sb) ∧
    (CopyOk e c₀ i → ∃ s, castStep e asa (c, rcv) i = .ok s) := by
  have hnec : c ≠ [] := fun hnil => hne (List.map_eq_nil_iff.mp (hc.symm.trans (congrArg _ hnil)))
  have hfrom := hc.copyFrom
  unfold castStep CopyStep CopyOk
  rw [← hfrom.length_eq, ← hfrom.chainHdr_eq]
  by_cases hmem : (copyFrom c).length ≤ e.copyMem i
  · obtain ⟨hnone, hsome⟩ := udpCopy_spec (C := e.clusters) hnec (hc.chainHdr_eq ▸ hhdr) hmem
    simp only [if_pos hmem]
    cases hl : chainHdr (copyFrom c) with
    | none =>
        rw [hnone hl]
        exact ⟨fun s hs => (by cases hs), fun hok => absurd rfl hok.1⟩
    | some l =>
        obtain ⟨c', n, hcopy, hsame, hn, hnhdr, hbytes⟩ := hsome l hl
        obtain ⟨m, hm, happend⟩ := udpAppend_eq asa rcv [] (e.addrMem i) i hnhdr
        simp only [hcopy, if_neg hn, happend]
        refine ⟨fun s hs => ?_, fun _ => ⟨_, rfl⟩⟩
        obtain rfl := Except.ok.inj hs
        refine ⟨hsame.trans hc, ?_⟩
        by_cases hroom : Room (rcv i) asa l [] (e.addrMem i)
        · refine ⟨_, by rw [if_pos hroom]; rfl, l, rfl, .inr ⟨hroom, m, n.map ClMbuf.toMbuf, hm, fun hle => ?_, rfl⟩⟩
          rw [← hc.clBytes_eq] at hle ⊢
          exact hbytes hle
        · refine ⟨rcv i, ?_, l, rfl, .inl ⟨hroom, rfl⟩⟩
          rw [if_neg hroom, Function.update_eq_self]
  · simp only [if_neg hmem]
    refine ⟨fun s hs => ?_, fun hok => absurd hok.2 hmem⟩
    split at hs
    · cases hs
    · rename_i c' n hcopy
      obtain ⟨hsame, rfl⟩ := udpCopy_short hnec (not_le.mp hmem) hcopy
      obtain rfl := Except.ok.inj hs
      exact ⟨hsame.trans hc, rcv i, (Function.update_eq_self _ _).symm, rfl⟩

theorem castSteps_spec {l : List ι} (hl : l.Nodup) (hc : SameContent c c₀) :
    (∀ s, l.foldlM (castStep e asa) (c, rcv) = .ok s → SameContent s.1 c₀ ∧
      (∀ i ∉ l, s.2 i = rcv i) ∧ ∀ i ∈ l, CopyStep e asa c₀ i (rcv i) (s.2 i)) ∧
    ((∀ i ∈ l, CopyOk e c₀ i) → ∃ s, l.foldlM (castStep e asa) (c, rcv) = .ok s) := by
  induction l generalizing c rcv with
  | nil =>
      refine ⟨fun s hs => ?_, fun _ => ⟨_, rfl⟩⟩
      obtain rfl := Except.ok.inj hs
      exact ⟨hc, fun _ _ => rfl, fun i hi => absurd hi List.not_mem_nil⟩
  | cons j l ih =>
      obtain ⟨hj, hl⟩ := List.nodup_cons.mp hl
      obtain ⟨hok, hex⟩ := castStep_spec e asa rcv hne hhdr j hc
      rw [List.foldlM_cons]
      constructor
      · intro s hs
        cases hstep : castStep e asa (c, rcv) j with
        | error f =>
            rw [hstep] at hs
            cases hs
        | ok s₁ =>
            rw [hstep] at hs
            obtain ⟨hsame, sb, hsb, hcopy⟩ := hok s₁ hstep
            obtain ⟨hsame', hout, hin⟩ := (ih s₁.2 hl hsame).1 s hs
            have hother : ∀ i ≠ j, s₁.2 i = rcv i := fun i hi => by rw [hsb, Function.update_of_ne hi]
            refine ⟨hsame', fun i hi => ?_, fun i hi => ?_⟩
            · rw [List.mem_cons, not_or] at hi
              obtain ⟨hij, hil⟩ := hi
              rw [hout i hil, hother i hij]
            · rcases List.mem_cons.mp hi with rfl | hil
              · rw [hout i hj, hsb, Function.update_self]
                exact hcopy
              · rw [← hother i fun hij => hj (hij ▸ hil)]
                exact hin i hil
      · intro hall
        obtain ⟨s₁, hstep⟩ := hex (hall j List.mem_cons_self)
        rw [hstep]
        exact (ih s₁.2 hl (hok s₁ hstep).1).2 fun i hi => hall i (List.mem_cons_of_mem j hi)

end

/-- The loop makes a copy for each of the sockets but the last one, in the order of the table. -/
theorem castLoop_eq (t : PcbTable ι) (h : UdpHead) (last : Option ι) (rest : List ι)
    (s : List (ClMbuf κ) × (ι → SockBuf)) :
    let E := last.toList ++ untilUnshared t (rest.filter fun i => (t.inp i).CastMatch h)
    castLoop e t h asa last rest s = (E.dropLast.foldlM (castStep e asa) s).map fun s => (E.getLast?, s) := by
  dsimp only
  induction rest generalizing last s with
  | nil =>
      cases last <;> rfl
  | cons i rest ih =>
      rw [castLoop]
      by_cases hmatch : (t.inp i).CastMatch h
      · rw [if_pos hmatch, List.filter_cons_of_pos (by simpa using hmatch), untilUnshared]
        cases last with
        | none =>
            by_cases hshares : (t.inp i).inpSocket.Shares
            · rw [if_pos hshares]
              exact (if_pos hshares).trans (ih (some i) s)
            · rw [if_neg hshares]
              exact if_neg hshares
        | some j =>
            by_cases hshares : (t.inp i).inpSocket.Shares
            · rw [if_pos hshares]
              change (castStep e asa s j).bind _ = Except.map _ (List.foldlM _ s (j :: (i :: _).dropLast))
              rw [List.foldlM_cons]
              cases castStep e asa s j with
              | error f => rfl
              | ok s => exact (if_pos hshares).trans (ih (some i) s)
            · rw [if_neg hshares]
              change (castStep e asa s j).bind _ = Except.map _ (List.foldlM _ s [j])
              rw [List.foldlM_cons]
              cases castStep e asa s j with
              | error f => rfl
              | ok s => exact if_neg hshares
      · rw [if_neg hmatch, List.filter_cons_of_neg (by simpa using hmatch)]
        exact ih last s

end

section

variable {κ ι : Type*} [DecidableEq κ] [DecidableEq ι] {e : UdpInEnv κ ι} {d : Demux ι} {rcv : ι → SockBuf}
  {udpIn : SockaddrIn} {h : UdpHead} {c c₀ : List (ClMbuf κ)} {iphlen : ℕ} {E : List ι} {j : ι} {l : ℤ}

/-! ## Broadcasts -/

omit [DecidableEq κ] [DecidableEq ι] in
theorem untilUnshared_sublist (t : PcbTable ι) (l : List ι) : (untilUnshared t l).Sublist l := by
  induction l with
  | nil => exact List.Sublist.slnil
  | cons i l ih =>
      rw [untilUnshared]
      split_ifs
      · exact ih.cons_cons i
      · exact (List.nil_sublist l).cons_cons i

omit [DecidableEq κ] [DecidableEq ι] in
theorem nodup_eligible {t : PcbTable ι} (hnd : t.chain.Nodup) (h : UdpHead) : (eligible t h).Nodup :=
  (hnd.filter _).sublist (untilUnshared_sublist t _)

omit [DecidableEq κ] [DecidableEq ι] in
/-- What happens to the buffer of a socket that the packet itself is for. -/
def AppendStep (asa : Sockaddr) (ctl : List Mbuf) (mget : Bool) (c : List (ClMbuf κ)) (l : ℤ) (sb sb' : SockBuf) :
    Prop :=
  (¬ Room sb asa l ctl mget ∧ sb' = sb) ∨ Room sb asa l ctl mget ∧ ∃ m data, m.mType = mtSONAME ∧
    chainBytes data = clBytes c ∧ sb' = sb.withRecord (m :: (ctl ++ data))

omit [DecidableEq κ] in
theorem udpAppend_spec (asa : Sockaddr) (ctl : List Mbuf) (mget : Bool) (rcv : ι → SockBuf) (j : ι)
    (hhdr : chainHdr c = some l) :
    ∃ r, udpAppend asa ctl mget rcv j c = .ok r ∧ (∀ i ≠ j, r.2 i = rcv i) ∧
      AppendStep asa ctl mget c l (rcv j) (r.2 j) := by
  obtain ⟨m, hm, heq⟩ := udpAppend_eq asa rcv ctl mget j hhdr
  refine ⟨_, heq, ?_⟩
  by_cases hroom : Room (rcv j) asa l ctl mget
  · rw [if_pos hroom]
    refine ⟨fun i hi => Function.update_of_ne hi _ _, .inr ⟨hroom, m, _, hm, rfl, Function.update_self _ _ _⟩⟩
  · rw [if_neg hroom]
    exact ⟨fun _ _ => rfl, .inl ⟨hroom, rfl⟩⟩

omit [DecidableEq κ] [DecidableEq ι] in
/-- What a broadcast does to the sockets that it is for: `j` gets the packet itself, and those before it get copies. -/
structure CastResult (e : UdpInEnv κ ι) (asa : Sockaddr) (c : List (ClMbuf κ)) (E : List ι) (j : ι) (l : ℤ)
    (rcv rcv' : ι → SockBuf) : Prop where
  out : ∀ i ∉ E ++ [j], rcv' i = rcv i
  copies : ∀ i ∈ E, CopyStep e asa c i (rcv i) (rcv' i)
  last : AppendStep asa [] (e.addrMem j) c l (rcv j) (rcv' j)

theorem udpCast_spec (e : UdpInEnv κ ι) (rcv : ι → SockBuf) (udpIn : SockaddrIn) (hstrip : udpStrip c = .ok c₀)
    (hE : eligible d.table h = E ++ [j]) (hnd : (E ++ [j]).Nodup) (hhdr : chainHdr c₀ = some l) :
    (∀ r, udpCast e d rcv udpIn h c = .ok r → CastResult e (udpIn.fromCast h).sockaddr c₀ E j l rcv r.rcv) ∧
    ((∀ i ∈ E, CopyOk e c₀ i) → ∃ r, udpCast e d rcv udpIn h c = .ok r) := by
  have hne : c₀ ≠ [] := by
    rintro rfl
    cases hhdr
  obtain ⟨hEnd, -, hj⟩ := List.nodup_append'.mp hnd
  have hj : j ∉ E := fun hmem => hj hmem (List.mem_singleton_self j)
  have hloop := castLoop_eq e (udpIn.fromCast h).sockaddr d.table h none d.table.chain
    (c₀, rcv)
  dsimp only at hloop
  rw [Option.toList_none, List.nil_append, ← eligible, hE, List.dropLast_concat, List.getLast?_concat] at hloop
  obtain ⟨hok, hex⟩ := castSteps_spec e (udpIn.fromCast h).sockaddr rcv hne
    (by rw [hhdr]; simp) hEnd (rfl : SameContent c₀ c₀)
  simp only [udpCast, hstrip, Except.bind, hloop]
  constructor
  · intro r hr
    cases hfold : E.foldlM (castStep e (udpIn.fromCast h).sockaddr) (c₀, rcv) with
    | error f =>
        rw [hfold] at hr
        cases hr
    | ok s =>
        obtain ⟨hsame, hout, hin⟩ := hok s hfold
        rw [hfold] at hr
        obtain ⟨p, hp, hother, hstep⟩ := udpAppend_spec (udpIn.fromCast h).sockaddr [] (e.addrMem j)
          s.2 j (hsame.chainHdr_eq.trans hhdr)
        simp only [Except.map, hp] at hr
        obtain rfl := Except.ok.inj hr
        dsimp only
        refine ⟨fun i hi => ?_, fun i hi => ?_, ?_⟩
        · rw [List.mem_append, not_or, List.mem_singleton] at hi
          rw [hother i hi.2, hout i hi.1]
        · rw [hother i fun hij => hj (hij ▸ hi)]
          exact hin i hi
        · rw [hout j hj] at hstep
          rwa [AppendStep, hsame.clBytes_eq] at hstep
  · intro hcopy
    obtain ⟨s, hs⟩ := hex hcopy
    obtain ⟨p, hp, -⟩ := udpAppend_spec (udpIn.fromCast h).sockaddr [] (e.addrMem j) s.2 j
      ((hok s hs).1.chainHdr_eq.trans hhdr)
    simp only [hs, Except.map, hp]
    exact ⟨_, rfl⟩

end

section

variable {κ ι : Type*} {c d : List (ClMbuf κ)} {iphlen : ℕ} {sb sb' : SockBuf} {ctl data : List Mbuf} {m : Mbuf}

/-! ## The records -/

theorem withRecord_ne (sb : SockBuf) (r : List Mbuf) : sb.withRecord r ≠ sb := by
  intro heq
  have hlen := congrArg (fun sb => sb.sbMb.length) heq
  rw [SockBuf.withRecord, List.length_append, List.length_singleton] at hlen
  omega

theorem withRecord_inj {r r' : List Mbuf} (heq : sb.withRecord r = sb.withRecord r') : r = r' := by
  have hmb : sb.sbMb ++ [r] = sb.sbMb ++ [r'] := congrArg SockBuf.sbMb heq
  exact List.singleton_inj.mp (List.append_cancel_left hmb)

theorem chainHdr_behind (c : List (ClMbuf κ)) : chainHdr (behind c) = chainHdr c := by
  cases c <;> rfl

theorem length_behind (c : List (ClMbuf κ)) : (behind c).length = c.length := by
  cases c <;> rfl

/-- A packet that is as long as its header says has just the data. -/
theorem UdpTrimmed.payload (hc : UdpReceived c iphlen) (ht : UdpTrimmed c iphlen d)
    (hlen : sizeofUdphdr ≤ (udpHead (udpHeaders c iphlen)).len)
    (hall : (clBytes d).length = (udpHead (udpHeaders c iphlen)).len + sizeofIp) :
    clBytes (behind d) = udpPayload c iphlen := by
  have hsize : sizeofUdpiphdr = sizeofIp + sizeofUdphdr := rfl
  obtain ⟨rest, hrest⟩ := ht.drop_eq hc (by omega)
  rw [ht.clBytes_behind (by omega), udpPayload, List.drop_take, ← hrest, List.take_append_of_le_length,
    List.take_of_length_le]
  · rw [List.length_drop]
    omega
  · rw [List.length_drop]
    omega

theorem takes_of (hm : m.mType = mtSONAME) (hdata : chainBytes data = clBytes d)
    (hd : clBytes d = udpPayload c iphlen)
    (hlen : (clBytes d).length + sizeofUdphdr = (udpHead (udpHeaders c iphlen)).len) :
    Takes c iphlen ctl sb (sb.withRecord (m :: (ctl ++ data))) :=
  ⟨m, data, hm, hdata.trans hd, by rw [← length_chainBytes, hdata, hlen], rfl⟩

variable {asa : Sockaddr} {mget : Bool} {l : ℤ}

/-- A packet that a socket takes has just the data. -/
theorem AppendStep.of_takes (h : AppendStep asa ctl mget d l sb sb') (htakes : Takes c iphlen ctl sb sb') :
    Room sb asa l ctl mget ∧ (clBytes d).length + sizeofUdphdr = (udpHead (udpHeaders c iphlen)).len := by
  obtain ⟨m, data, -, -, hlen, rfl⟩ := htakes
  rcases h with ⟨-, hsame⟩ | ⟨hroom, m', data', -, hdata, heq⟩
  · exact absurd hsame (withRecord_ne sb _)
  · have hsame : ctl ++ data = ctl ++ data' := (List.cons.inj (withRecord_inj heq)).2
    rw [← hdata, length_chainBytes, ← List.append_cancel_left hsame]
    exact ⟨hroom, hlen⟩

theorem AppendStep.room_of_ne (h : AppendStep asa ctl mget d l sb sb') : sb' ≠ sb ↔ Room sb asa l ctl mget := by
  rcases h with ⟨hroom, rfl⟩ | ⟨hroom, m, data, -, -, rfl⟩
  · exact iff_of_false (fun h => h rfl) hroom
  · exact iff_of_true (withRecord_ne sb _) hroom

variable {e : UdpInEnv κ ι} {i : ι}

/-- A socket whose buffer is changed got a copy. -/
theorem CopyStep.of_ne (h : CopyStep e asa d i sb sb') (hne : sb' ≠ sb) :
    CopyOk e d i ∧ ∀ l ∈ chainHdr (copyFrom d), Room sb asa l [] (e.addrMem i) := by
  unfold CopyStep at h
  split_ifs at h with hmem
  · obtain ⟨l, hl, ⟨-, hsame⟩ | ⟨hroom, -⟩⟩ := h
    · exact absurd hsame hne
    · refine ⟨⟨by rw [hl]; simp, hmem⟩, fun l' hl' => ?_⟩
      obtain rfl := Option.some.inj (hl.symm.trans hl')
      exact hroom
  · exact absurd h hne

/-- A socket whose buffer is not changed got none, if there was memory for it. -/
theorem CopyStep.of_eq (h : CopyStep e asa d i sb sb) (hmem : (copyFrom d).length ≤ e.copyMem i) :
    CopyOk e d i ∧ ∀ l ∈ chainHdr (copyFrom d), ¬ Room sb asa l [] (e.addrMem i) := by
  rw [CopyStep, if_pos hmem] at h
  obtain ⟨l, hl, ⟨hroom, -⟩ | ⟨-, m, data, -, -, heq⟩⟩ := h
  · refine ⟨⟨by rw [hl]; simp, hmem⟩, fun l' hl' => ?_⟩
    obtain rfl := Option.some.inj (hl.symm.trans hl')
    exact hroom
  · exact absurd heq.symm (withRecord_ne sb _)

/-- A copy for a socket that has room. -/
theorem CopyStep.takes (h : CopyStep e asa d i sb sb') (hok : CopyOk e d i)
    (hroom : ∀ l ∈ chainHdr (copyFrom d), Room sb asa l [] (e.addrMem i)) (hd : clBytes d = udpPayload c iphlen)
    (hlen : (clBytes d).length + sizeofUdphdr = (udpHead (udpHeaders c iphlen)).len) : Takes c iphlen [] sb sb' := by
  rw [CopyStep, if_pos hok.2] at h
  obtain ⟨l, hl, ⟨hnot, -⟩ | ⟨-, m, data, hm, hdata, rfl⟩⟩ := h
  · exact absurd (hroom l hl) hnot
  · have hlt : (udpHead (udpHeaders c iphlen)).len < 65536 := (swap16 (udpHead (udpHeaders c iphlen)).uhUlen).isLt
    have hmax : 65536 ≤ mCOPYALL := by decide
    exact takes_of hm (hdata (by omega)) hd hlen

/-- The same for a socket without room. -/
theorem CopyStep.same (h : CopyStep e asa d i sb sb') (hok : CopyOk e d i)
    (hroom : ∀ l ∈ chainHdr (copyFrom d), ¬ Room sb asa l [] (e.addrMem i)) : sb' = sb := by
  rw [CopyStep, if_pos hok.2] at h
  obtain ⟨l, hl, ⟨-, hsame⟩ | ⟨hroom', -⟩⟩ := h
  · exact hsame
  · exact absurd hroom' (hroom l hl)

theorem length_copyFrom_le (c : List (ClMbuf κ)) : (copyFrom c).length ≤ c.length := by
  induction c with
  | nil => exact le_rfl
  | cons m next ih =>
      rw [copyFrom]
      split_ifs
      · exact ih.trans (Nat.le_succ _)
      · exact le_rfl

end

section

variable {κ ι : Type*} {e : UdpInEnv κ ι} {t : Demux ι} {rcv : ι → SockBuf} {c d : List (ClMbuf κ)} {iphlen : ℕ}

/-! ## When it is right -/

theorem castFits_iff {h : UdpHead} {asa : Sockaddr} {E : List ι} {j : ι} {l : ℤ} (heq : eligible t.table h = E ++ [j])
    (hl : chainHdr d = some l) : CastFits e t rcv asa h d ↔ (∀ i ∈ E, CopyOk e (behind d) i) ∧
      if sizeofUdphdr ≤ h.len then
        (clBytes d).length = h.len + sizeofIp ∧
          (∀ i ∈ E, ∀ l ∈ chainHdr (copyFrom (behind d)), Room (rcv i) asa l [] (e.addrMem i)) ∧
          Room (rcv j) asa l [] (e.addrMem j)
      else
        (∀ i ∈ E, ∀ l ∈ chainHdr (copyFrom (behind d)), ¬ Room (rcv i) asa l [] (e.addrMem i)) ∧
          ¬ Room (rcv j) asa l [] (e.addrMem j) := by
  simp only [CastFits, CopyOk, heq, List.dropLast_concat, List.getLast?_concat, Option.mem_some_iff, forall_eq', hl]

namespace CastResult

variable {asa : Sockaddr} {E : List ι} {j : ι} {l : ℤ} {rcv' : ι → SockBuf}

/-- Where all sockets have room, all take the data. -/
theorem takes (h : CastResult e asa d E j l rcv rcv') (hcopies : ∀ i ∈ E, CopyOk e d i)
    (hrooms : ∀ i ∈ E, ∀ l ∈ chainHdr (copyFrom d), Room (rcv i) asa l [] (e.addrMem i))
    (hroom : Room (rcv j) asa l [] (e.addrMem j)) (hpay : clBytes d = udpPayload c iphlen)
    (hcount : (clBytes d).length + sizeofUdphdr = (udpHead (udpHeaders c iphlen)).len) :
    ∀ i ∈ E ++ [j], Takes c iphlen [] (rcv i) (rcv' i) := by
  intro i hi
  rcases List.mem_append.mp hi with hiE | hij
  · exact (h.copies i hiE).takes (hcopies i hiE) (hrooms i hiE) hpay hcount
  · obtain rfl := List.mem_singleton.mp hij
    rcases h.last with ⟨hnot, -⟩ | ⟨-, m, data, hm, hdata, heq⟩
    · exact absurd hroom hnot
    · rw [heq]
      exact takes_of hm hdata hpay hcount

/-- Where none has room, none is changed. -/
theorem same (h : CastResult e asa d E j l rcv rcv') (hcopies : ∀ i ∈ E, CopyOk e d i)
    (hrooms : ∀ i ∈ E, ∀ l ∈ chainHdr (copyFrom d), ¬ Room (rcv i) asa l [] (e.addrMem i))
    (hroom : ¬ Room (rcv j) asa l [] (e.addrMem j)) (i : ι) : rcv' i = rcv i := by
  by_cases hi : i ∈ E ++ [j]
  · rcases List.mem_append.mp hi with hiE | hij
    · exact (h.copies i hiE).same (hcopies i hiE) (hrooms i hiE)
    · obtain rfl := List.mem_singleton.mp hij
      exact not_not.mp (mt h.last.room_of_ne.mp hroom)
  · exact h.out i hi

/-- If all take the data, all have room, and the packet is as long as its header says. -/
theorem rooms_of_takes (h : CastResult e asa d E j l rcv rcv')
    (htakes : ∀ i ∈ E ++ [j], Takes c iphlen [] (rcv i) (rcv' i)) :
    (∀ i ∈ E, CopyOk e d i ∧ ∀ l ∈ chainHdr (copyFrom d), Room (rcv i) asa l [] (e.addrMem i)) ∧
      Room (rcv j) asa l [] (e.addrMem j) ∧
      (clBytes d).length + sizeofUdphdr = (udpHead (udpHeaders c iphlen)).len := by
  refine ⟨fun i hi => (h.copies i hi).of_ne ?_,
    h.last.of_takes (htakes j (List.mem_append_right _ (List.mem_singleton_self j)))⟩
  obtain ⟨m, data, -, -, -, heq⟩ := htakes i (List.mem_append_left _ hi)
  rw [heq]
  exact withRecord_ne _ _

/-- If none is changed although there is memory for copies, none has room. -/
theorem rooms_of_same (h : CastResult e asa d E j l rcv rcv') (hsame : ∀ i, rcv' i = rcv i)
    (hmem : ∀ i, (copyFrom d).length ≤ e.copyMem i) :
    (∀ i ∈ E, CopyOk e d i ∧ ∀ l ∈ chainHdr (copyFrom d), ¬ Room (rcv i) asa l [] (e.addrMem i)) ∧
      ¬ Room (rcv j) asa l [] (e.addrMem j) := by
  refine ⟨fun i hi => ?_, fun hroom => h.last.room_of_ne.mpr hroom (hsame j)⟩
  have hstep := h.copies i hi
  rw [hsame i] at hstep
  exact hstep.of_eq (hmem i)

end CastResult

end

section

variable {κ ι : Type*} [DecidableEq κ] [DecidableEq ι] {e : UdpInEnv κ ι} {t : Demux ι} {rcv : ι → SockBuf}
  {udpIn : SockaddrIn} {c d : List (ClMbuf κ)} {iphlen : ℕ}

theorem udpCast_error {h : UdpHead} {f : UdpFault} (hstrip : udpStrip d = .error f) :
    udpCast e t rcv udpIn h d = .error f := by
  simp only [udpCast, hstrip]
  rfl

/-- A broadcast that is summed up right. -/
theorem udpCast_rightIff (rcv : ι → SockBuf) (udpIn : SockaddrIn) (hc : UdpReceived c iphlen)
    (ht : UdpTrimmed c iphlen d) (hnd : t.table.chain.Nodup) {d' : List (ClMbuf κ)}
    (hstrip : udpStrip d' = .ok (behind d)) (hlong : sizeofUdpiphdr ≤ (clBytes d).length)
    (hvalid : UdpValid c iphlen ↔ sizeofUdphdr ≤ (udpHead (udpHeaders c iphlen)).len)
    (hcast : (udpHead (udpHeaders c iphlen)).IsCast e.rcvif) :
    let h := udpHead (udpHeaders c iphlen)
    let right := ∃ r, udpCast e t rcv udpIn h d' = .ok r ∧ RcvRight e t c iphlen rcv r.rcv
    ((eligible t.table h ≠ [] → CastFits e t rcv (udpIn.fromCast h).sockaddr h d) → right) ∧
      (sizeofUdphdr ≤ h.len ∨ (∀ i, c.length + 1 ≤ e.copyMem i) → right →
        eligible t.table h ≠ [] → CastFits e t rcv (udpIn.fromCast h).sockaddr h d) := by
  simp only [RcvRight, hcast, true_imp_iff]
  rw [hvalid]
  have hE := nodup_eligible hnd (udpHead (udpHeaders c iphlen))
  rcases List.eq_nil_or_concat' (eligible t.table (udpHead (udpHeaders c iphlen))) with hnil | ⟨E, j, heq⟩
  · refine ⟨fun _ => ?_, fun _ _ hne => absurd hnil hne⟩
    have hloop := castLoop_eq e (udpIn.fromCast (udpHead (udpHeaders c iphlen))).sockaddr t.table
      (udpHead (udpHeaders c iphlen)) none t.table.chain (behind d, rcv)
    dsimp only at hloop
    rw [Option.toList_none, List.nil_append, ← eligible, hnil] at hloop
    refine ⟨⟨rcv, t.last, udpIn.fromCast (udpHead (udpHeaders c iphlen)), .freed⟩, ?_, fun i hi => absurd rfl hi,
      fun _ i => ⟨fun hi => ?_, fun _ => rfl⟩⟩
    · simp only [udpCast, hstrip, Except.bind, hloop]
      rfl
    · rw [hnil] at hi
      exact absurd hi List.not_mem_nil
  · rw [heq] at hE ⊢
    obtain ⟨l, hl⟩ := Option.ne_none_iff_exists'.mp ht.hdr
    have hl' : chainHdr (behind d) = some l := (chainHdr_behind d).trans hl
    obtain ⟨hok, hex⟩ := udpCast_spec e rcv udpIn hstrip heq hE hl'
    have hsize : sizeofUdpiphdr = sizeofIp + sizeofUdphdr := rfl
    have hlength : (clBytes (behind d)).length + sizeofUdpiphdr = (clBytes d).length := by
      rw [ht.clBytes_behind hlong, List.length_drop]
      omega
    rw [castFits_iff heq hl]
    constructor
    · intro hfits
      obtain ⟨hcopies, hrest⟩ := hfits (by simp)
      obtain ⟨r, hr⟩ := hex hcopies
      have hres := hok r hr
      refine ⟨r, hr, ?_⟩
      split_ifs at hrest with hlen
      · obtain ⟨hall, hrooms, hroom⟩ := hrest
        have htakes := hres.takes hcopies hrooms hroom (ht.payload hc hlen hall) (by omega)
        refine ⟨fun i hi => ⟨hlen, htakes i ?_⟩, fun _ i => ⟨htakes i, hres.out i⟩⟩
        by_contra hiE
        exact hi (hres.out i hiE)
      · exact ⟨fun i hi => absurd (hres.same hcopies hrest.1 hrest.2 i) hi, fun h => absurd h hlen⟩
    · rintro hmem ⟨r, hr, hright, hall⟩ -
      have hres := hok r hr
      by_cases hlen : sizeofUdphdr ≤ (udpHead (udpHeaders c iphlen)).len
      · obtain ⟨hcopies, hroom, hcount⟩ := hres.rooms_of_takes fun i => (hall hlen i).1
        rw [if_pos hlen]
        exact ⟨fun i hi => (hcopies i hi).1, by omega, fun i hi => (hcopies i hi).2, hroom⟩
      · have hle := length_copyFrom_le (behind d)
        have hcount := ht.length
        rw [length_behind] at hle
        obtain ⟨hcopies, hroom⟩ := hres.rooms_of_same (fun i => not_not.mp fun hne => hlen (hright i hne).1)
          fun i => by
            have := hmem.resolve_left hlen i
            omega
        rw [if_neg hlen]
        exact ⟨fun i hi => (hcopies i hi).1, fun i hi => (hcopies i hi).2, hroom⟩

omit [DecidableEq κ] in
/-- The packet is handed to one socket. -/
theorem unicast_rightIff (hc : UdpReceived c iphlen) (ht : UdpTrimmed c iphlen d)
    (hlong : sizeofUdpiphdr ≤ (clBytes d).length) (h : UdpHead) (i : ι) (last : LastInpcb ι) :
    (∃ r : UdpDone κ ι, (Except.ok (behind d)).bind (fun c =>
        (udpAppend (udpIn.fromHead h).sockaddr (udpOpts e h i) (e.addrMem i) rcv i
          (c.modifyHead fun m => { m with mPkthdr := m.mPkthdr.map (· - sizeofUdpiphdr) })).map fun r =>
            (⟨r.2, last, udpIn.fromHead h, if r.1 then .appended else .freed⟩ : UdpDone κ ι)) = .ok r ∧
      ∀ k, r.rcv k ≠ rcv k → sizeofUdphdr ≤ (udpHead (udpHeaders c iphlen)).len ∧
        Takes c iphlen (udpOpts e h k) (rcv k) (r.rcv k)) ↔
      sizeofUdpiphdr ≤ (clBytes d).length ∧ ∀ l ∈ chainHdr d,
        Room (rcv i) (udpIn.fromHead h).sockaddr (l - sizeofUdpiphdr) (udpOpts e h i) (e.addrMem i) →
          sizeofUdphdr ≤ (udpHead (udpHeaders c iphlen)).len ∧
            (clBytes d).length = (udpHead (udpHeaders c iphlen)).len + sizeofIp := by
  have hsize : sizeofUdpiphdr = sizeofIp + sizeofUdphdr := rfl
  obtain ⟨l, hl⟩ := Option.ne_none_iff_exists'.mp ht.hdr
  set c₀ := (behind d).modifyHead fun m => { m with mPkthdr := m.mPkthdr.map (· - sizeofUdpiphdr) } with hc₀
  have hl' : chainHdr c₀ = some (l - sizeofUdpiphdr) := by
    cases d with
    | nil => cases hl
    | cons m next => exact congrArg (Option.map (· - (sizeofUdpiphdr : ℤ))) hl
  have hbytes : clBytes c₀ = clBytes (behind d) := by
    cases d <;> rfl
  have hlength : (clBytes (behind d)).length + sizeofUdpiphdr = (clBytes d).length := by
    rw [ht.clBytes_behind hlong, List.length_drop]
    omega
  obtain ⟨r, hr, hother, hstep⟩ := udpAppend_spec (udpIn.fromHead h).sockaddr (udpOpts e h i) (e.addrMem i) rcv i hl'
  rw [AppendStep, hbytes, ← AppendStep] at hstep
  simp only [Except.bind, ← hc₀, hr, Except.map]
  constructor
  · rintro ⟨r', hr', hright⟩
    obtain rfl := Except.ok.inj hr'
    refine ⟨hlong, fun l' hl'' hroom => ?_⟩
    obtain rfl := Option.some.inj (hl.symm.trans hl'')
    obtain ⟨hlen, htakes⟩ := hright i (hstep.room_of_ne.mpr hroom)
    have hcount := (hstep.of_takes htakes).2
    exact ⟨hlen, by omega⟩
  · rintro ⟨-, hall⟩
    refine ⟨_, rfl, fun k hk => ?_⟩
    obtain rfl : k = i := by
      by_contra hki
      exact hk (hother k hki)
    obtain ⟨hlen, hcount⟩ := hall l hl (hstep.room_of_ne.mp hk)
    refine ⟨hlen, ?_⟩
    rcases hstep with ⟨-, hsame⟩ | ⟨-, m, data, hm, hdata, heq⟩
    · exact absurd hsame hk
    · dsimp only
      rw [heq]
      exact takes_of hm hdata (ht.payload hc hlen hcount) (by omega)

omit [DecidableEq κ] in
/-- A datagram for one socket that is summed up right. -/
theorem udpUnicast_rightIff (t : Demux ι) (rcv : ι → SockBuf) (udpIn : SockaddrIn) (ht : UdpTrimmed c iphlen d)
    (hc : UdpReceived c iphlen) {hd : List Byte} (hhd : udpHead hd = udpHead (udpHeaders c iphlen))
    {d' : List (ClMbuf κ)}
    (hstrip : udpStrip d' = if sizeofUdpiphdr ≤ (clBytes d).length then .ok (behind d) else .error .negative)
    (hvalid : UdpValid c iphlen ↔ sizeofUdphdr ≤ (udpHead (udpHeaders c iphlen)).len)
    (hcast : ¬ (udpHead (udpHeaders c iphlen)).IsCast e.rcvif) :
    (∃ r, udpUnicast e t rcv udpIn hd d' = .ok r ∧ RcvRight e t c iphlen rcv r.rcv) ↔
      UnicastFits e t rcv udpIn (udpHead (udpHeaders c iphlen)) d := by
  simp only [RcvRight, hcast, false_imp_iff, imp_true_iff, and_true]
  rw [hvalid, UnicastFits, udpUnicast, hhd]
  cases hfind : t.findpcb _ _ _ _ with
  | none =>
      refine iff_of_false ?_ ?_
      · rintro ⟨r, hr, -⟩
        cases hr
      · rintro ⟨p, hp, -⟩
        cases hp
  | some p =>
      obtain ⟨x, last⟩ := p
      simp only [Option.some.injEq, exists_eq_left']
      cases x with
      | none => exact iff_of_true ⟨_, rfl, fun i hi => absurd rfl hi⟩ (by simp)
      | some y =>
          simp only [Option.mem_some_iff, forall_eq']
          cases y with
          | null => simp
          | head => simp
          | pcb i =>
              simp only [LastInpcb.pcb.injEq, exists_eq_left', hstrip]
              by_cases hlong : sizeofUdpiphdr ≤ (clBytes d).length
              · rw [if_pos hlong]
                exact unicast_rightIff hc ht hlong (udpHead (udpHeaders c iphlen)) i last
              · rw [if_neg hlong]
                refine iff_of_false ?_ fun h => hlong h.1
                rintro ⟨r, hr, -⟩
                cases hr

omit [DecidableEq κ] in
theorem udpCheck_congr {mtod : ClMbuf κ → BitVec 32} {hd hd' : List Byte} (h : udpHead hd = udpHead hd')
    (hck : cksumHead hd = cksumHead hd') (d : List (ClMbuf κ)) : udpCheck mtod hd d = udpCheck mtod hd' d := by
  rw [udpCheck, udpCheck, h, hck]

/-- A packet that is not longer than its header says it may be. -/
theorem trimmed_rightIff (hc : UdpReceived c iphlen) (ht : UdpTrimmed c iphlen d) (hnd : t.table.chain.Nodup)
    (hle : ((udpHead (udpHeaders c iphlen)).len : ℤ) ≤ (udpHead (udpHeaders c iphlen)).ipLen.toInt)
    {hd : List Byte} (hhd : udpHead hd = udpHead (udpHeaders c iphlen)) :
    let right := ∃ r, ((udpCheck e.mtod (udpHeaders c iphlen) d).bind fun d =>
      match d with
      | none => .ok ⟨rcv, t.last, udpIn, .freed⟩
      | some d =>
          if (udpHead (udpHeaders c iphlen)).IsCast e.rcvif then
            udpCast e t rcv udpIn (udpHead (udpHeaders c iphlen)) d
          else udpUnicast e t rcv udpIn hd d) = .ok r ∧ RcvRight e t c iphlen rcv r.rcv
    (TrimmedFits e t rcv udpIn (udpHeaders c iphlen) d → right) ∧
      (sizeofUdphdr ≤ (udpHead (udpHeaders c iphlen)).len ∨ (∀ i, c.length + 1 ≤ e.copyMem i) → right →
        TrimmedFits e t rcv udpIn (udpHeaders c iphlen) d) := by
  dsimp only
  rw [udpCheck_eq, TrimmedFits]
  by_cases hshort : (udpHead (udpHeaders c iphlen)).uhSum ≠ 0 ∧
      (clBytes d).length < (udpHead (udpHeaders c iphlen)).len + sizeofIp
  · rw [if_pos hshort]
    refine ⟨fun h => absurd (h.1 hshort.1) hshort.2.not_ge, fun _ => ?_⟩
    rintro ⟨r, hr, -⟩
    cases hr
  rw [if_neg hshort]
  have hbytes : (udpHead (udpHeaders c iphlen)).uhSum ≠ 0 →
      (udpHead (udpHeaders c iphlen)).len + sizeofIp ≤ (clBytes d).length :=
    fun hsum => not_lt.mp fun hlt => hshort ⟨hsum, hlt⟩
  have hsum : sizeofUdphdr ≤ (udpHead (udpHeaders c iphlen)).len →
      (SumTaken (udpHeaders c iphlen) d ↔ (udpHead (udpHeaders c iphlen)).uhSum = 0 ∨
        rfc1071 (cksumHead (udpHeaders c iphlen) ++ udpPayload c iphlen) = 0) := by
    intro hlen
    by_cases hzero : (udpHead (udpHeaders c iphlen)).uhSum = 0
    · exact iff_of_true (.inl hzero) (.inl hzero)
    · exact sumTaken_iff hc ht hlen (hbytes hzero)
  rw [and_iff_right hbytes]
  by_cases htaken : SumTaken (udpHeaders c iphlen) d
  · have hvalid : UdpValid c iphlen ↔ sizeofUdphdr ≤ (udpHead (udpHeaders c iphlen)).len :=
      ⟨fun h => h.le_len, fun h => ⟨h, hle, (hsum h).mp htaken⟩⟩
    have hstrip : udpStrip (summed (udpHeaders c iphlen) d) =
        if sizeofUdpiphdr ≤ (clBytes d).length then .ok (behind d) else .error .negative := by
      rw [← ht.strip, summed]
      split_ifs
      · rfl
      · have hlen := length_cksumHead (length_udpHeaders hc ht.enough)
        rw [udpStrip_patch _ _ (patch _ _), udpStrip_patch _ hlen]
        rw [List.length_append, List.length_take, hlen]
        rfl
    rw [if_pos htaken]
    simp only [Except.bind, htaken, true_imp_iff]
    by_cases hcast : (udpHead (udpHeaders c iphlen)).IsCast e.rcvif
    · simp only [if_pos hcast]
      by_cases hlong : sizeofUdpiphdr ≤ (clBytes d).length
      · rw [if_pos hlong] at hstrip
        obtain ⟨hright, hfits⟩ := udpCast_rightIff rcv udpIn hc ht hnd hstrip hlong hvalid hcast
        exact ⟨fun h => hright h.2, fun hmem h => ⟨hlong, hfits hmem h⟩⟩
      · rw [if_neg hlong] at hstrip
        refine ⟨fun h => absurd h.1 hlong, fun _ => ?_⟩
        rintro ⟨r, hr, -⟩
        rw [udpCast_error hstrip] at hr
        cases hr
    · simp only [if_neg hcast]
      have hiff := udpUnicast_rightIff t rcv udpIn ht hc hhd hstrip hvalid hcast
      exact ⟨hiff.mpr, fun _ => hiff.mp⟩
  · rw [if_neg htaken]
    simp only [Except.bind, htaken, false_imp_iff, implies_true, and_true]
    refine fun _ => ⟨_, rfl, fun i hi => absurd rfl hi, fun hvalid _ => ?_⟩
    exact absurd ((hsum hvalid.le_len).mpr hvalid.sum) htaken

/-- **Sockets get just the data of good datagrams where `m_pullup` leaves the headers and what is taken for a datagram
has a header and the length it says**; only if then, unless the mbufs for a copy are missing. -/
theorem udpInput_rightIff (hc : UdpReceived c iphlen) (hnd : t.table.chain.Nodup) :
    (UdpInputFits e t rcv udpIn c iphlen → UdpRight e t rcv udpIn c iphlen) ∧
      (sizeofUdphdr ≤ (udpHead (udpHeaders c iphlen)).len ∨ (∀ i, c.length + 1 ≤ e.copyMem i) →
        UdpRight e t rcv udpIn c iphlen → UdpInputFits e t rcv udpIn c iphlen) := by
  rw [UdpInputFits, UdpRight]
  cases hpull : udpPull e iphlen c with
  | error f =>
      refine ⟨?_, fun _ => ?_⟩
      · rintro ⟨d, hd, -⟩
        cases hd
      · rintro ⟨r, hr, -⟩
        rw [udpInput, hpull] at hr
        cases hr
  | ok c₁ =>
      have hp := udpPull_spec hc hpull
      obtain ⟨hhead, hck⟩ := head_pulled hc hp
      simp only [udpInput, hpull, Except.bind, hhead, udpCheck_congr hhead hck, Except.ok.injEq, exists_eq_left']
      cases htrim : udpTrim (udpHead (udpHeaders c iphlen)) c₁ with
      | none =>
          have hgt := udpTrim_eq_none.mp htrim
          refine ⟨fun _ => ⟨_, rfl, fun i hi => absurd rfl hi, fun hvalid => absurd hvalid.len_le hgt.not_ge⟩, ?_⟩
          exact fun _ _ d hd => by cases hd
      | some d =>
          have hle := not_lt.mp (mt udpTrim_eq_none.mpr (by rw [htrim]; simp))
          simp only [Option.mem_some_iff, forall_eq']
          exact trimmed_rightIff hc (hp.trim htrim) hnd hle hhead

end

/-! ## Two datagrams -/

/-- An environment without broadcasts, with all the memory that is wanted. -/
def udpEnvPlain : UdpInEnv ℕ ℕ where
  rcvif := ⟨false, []⟩
  linkCast := false
  mtod := fun _ => 0
  inpFlags := fun _ => 0
  clusters := ∅
  pullMem := true
  optMem := true
  copyMem := fun _ => 2
  addrMem := fun _ => true

/-- One block, for port 7, and the buffer of its socket. -/
def udpEcho : Demux ℕ := ⟨⟨0, [0], fun _ => ⟨0, 0, 0, 0x0700, ⟨0, false, false⟩⟩⟩, .head⟩

def udpEmpty : SockBuf where
  sbCc := 0
  sbMbcnt := 0
  sbHiwat := 41600
  sbMbmax := 83200
  sbLock := false
  sbMb := []

/-- A datagram for port 7 without a checksum, with `ip_len` and `uh_ulen` in the last two arguments. -/
def udpChain (data : List Byte) (ipLen uhUlen : Byte) : List (ClMbuf ℕ) :=
  [⟨1, false, some (28 + data.length), 8, [0x45, 0, ipLen, 0, 0, 0, 0, 0, 64, 17, 0, 0, 10, 0, 0, 2, 10, 0, 0, 1,
    0x12, 0x34, 0, 7, 0, uhUlen, 0, 0] ++ data, none⟩]

/-- Two bytes of data. -/
theorem udpInput_rightIff_two : UdpReceived (udpChain [1, 2] 10 10) 20 ∧ udpEcho.table.chain.Nodup ∧
    UdpRight udpEnvPlain udpEcho (fun _ => udpEmpty) ⟨0, 2, 0, 0⟩ (udpChain [1, 2] 10 10) 20 := by
  have hc : UdpReceived (udpChain [1, 2] 10 10) 20 := ⟨by decide, by decide, ⟨_, rfl, by decide⟩, by decide⟩
  have hnd : udpEcho.table.chain.Nodup := by decide
  refine ⟨hc, hnd, (udpInput_rightIff hc hnd).1 ⟨udpChain [1, 2] 10 10, rfl, fun c h => ?_⟩⟩
  obtain rfl := Option.some.inj h
  refine ⟨fun h => absurd (by decide) h, fun _ => ?_⟩
  rw [if_neg (by decide)]
  refine ⟨(some (.pcb 0), .pcb 0), by decide, fun x hx => ⟨0, (Option.some.inj hx).symm, by decide, fun _ _ _ => ?_⟩⟩
  decide

/-- A datagram of 28 bytes with 4 in `uh_ulen`: 28 bytes are taken off the 24 that are left. -/
theorem udp_len_can_be_negative : ¬ ∀ (e : UdpInEnv ℕ ℕ) (d : Demux ℕ) (rcv : ℕ → SockBuf) (udpIn : SockaddrIn)
    (c : List (ClMbuf ℕ)) (iphlen : ℕ), UdpReceived c iphlen → d.table.chain.Nodup →
      UdpRight e d rcv udpIn c iphlen := by
  intro hall
  have hc : UdpReceived (udpChain [] 8 4) 20 := ⟨by decide, by decide, ⟨_, rfl, by decide⟩, by decide⟩
  obtain ⟨r, hr, -⟩ := hall udpEnvPlain udpEcho (fun _ => udpEmpty) ⟨0, 2, 0, 0⟩ (udpChain [] 8 4) 20 hc (by decide)
  have hneg : udpInput udpEnvPlain udpEcho (fun _ => udpEmpty) ⟨0, 2, 0, 0⟩ (udpChain [] 8 4) 20 =
      .error .negative := rfl
  rw [hneg] at hr
  cases hr

end Shaunos.Net
