import Mathlib
import Shaunos.Net.MbufCopy

/-!
# What `m_pullup` keeps

Reference: `Kernel/mbuf.c` (`m_pullup`, `m_freem`).

`m_pullup` is meant to take bytes from one mbuf after the other. Where an mbuf is used up, it goes on with
`n = m_freem(n)` though, which frees the rest of the chain with it and returns null, so the loop is left.

* `mFreem_spec` — what `m_freem` does, in terms of the clusters that are allocated;
* `pullupInto_lt`, `pullupInto_eq`, `pullupInto_gt` — the three ends of `m_pullup`;
* `pullupRight_iff` — when the chain keeps its bytes, or is freed once;
* `mPullup_left` — what is left in front in any case.
-/

namespace Shaunos.Net

variable {κ : Type*} [DecidableEq κ]

/-! ## What callers expect -/

/-- Two states with the same chains and the same clusters. -/
def SameMbufs (s t : MbufState κ) : Prop := (∀ j, s.chain j = t.chain j) ∧ s.clusters = t.clusters

/-- `m_pullup` returns. If the chain is too short, it is freed as `m_freem` frees it. If `m_pullup` is asked for no
more than an mbuf holds and does not return null, the chain has the same bytes and the same header, and at least
`len` bytes in its first mbuf. -/
def PullupRight (s : MbufState κ) (i len : ℕ) (mget : Bool) (mem : Option κ) : Prop :=
  ∃ t, mPullup s i len mget mem = some t ∧
    ((clBytes (s.chain i)).length < len → ∀ t', mFreem s i = some t' → SameMbufs t t') ∧
    (len ≤ min (clBytes (s.chain i)).length mHLEN → t.chain i ≠ [] →
      clBytes (t.chain i) = clBytes (s.chain i) ∧ chainHdr (t.chain i) = chainHdr (s.chain i) ∧
        ∃ m ∈ (t.chain i).head?, len ≤ m.mLen)

omit [DecidableEq κ] in
/-- The mbuf that the last bytes are taken from has more than that, or it is the last one with bytes. -/
def PullupFits (len : ℕ) (mget : Bool) (mem : Option κ) : List (ClMbuf κ) → Prop
  | [] => True
  | n :: next =>
      if PullsInPlace n next len then
        n.mLen < len → ∀ n₂ ∈ next.head?, len < n.mLen + n₂.mLen ∨
          len = n.mLen + n₂.mLen ∧ (clBytes (n :: next)).length = len
      else if mAXMCLBYTES < len ∨ mget = false then True
      else (mHLEN < len → mem ≠ none) ∧ (n.mLen = len → (clBytes (n :: next)).length = len)

instance (len : ℕ) (mget : Bool) (mem : Option κ) : DecidablePred (PullupFits len mget mem)
  | [] => isTrue trivial
  | n :: next =>
      inferInstanceAs (Decidable (if PullsInPlace n next len then
          n.mLen < len → ∀ n₂ ∈ next.head?, len < n.mLen + n₂.mLen ∨
            len = n.mLen + n₂.mLen ∧ (clBytes (n :: next)).length = len
        else if mAXMCLBYTES < len ∨ mget = false then True
        else (mHLEN < len → mem ≠ none) ∧ (n.mLen = len → (clBytes (n :: next)).length = len)))

/-! ## Freeing -/

/-- The clusters that are left when those of some mbufs are freed one after the other. It is a fault to free one
that is not allocated. -/
def freeShares : List (Share κ) → Finset κ → Option (Finset κ)
  | [], C => some C
  | x :: l, C =>
      if x.2 = 1 then if x.1 ∈ C then freeShares l (C.erase x.1) else none else freeShares l C

section

variable {l : List (Share κ)} {C C' D : Finset κ}

/-- What can be freed can also be freed when more is allocated. -/
theorem freeShares_mono (hsub : C ⊆ C') (h : (freeShares l C).isSome) : (freeShares l C').isSome := by
  induction l generalizing C C' with
  | nil => rfl
  | cons x l ih =>
      rw [freeShares] at h ⊢
      split at h
      · rename_i hlast
        rw [if_pos hlast]
        split at h
        · rename_i hmem
          rw [if_pos (hsub hmem)]
          exact ih (Finset.erase_subset_erase x.1 hsub) h
        · cases h
      · rename_i hmore
        rw [if_neg hmore]
        exact ih hsub h

theorem freeShares_tail {x : Share κ} (h : (freeShares (x :: l) C).isSome) : (freeShares l C).isSome := by
  rw [freeShares] at h
  split at h
  · split at h
    · exact freeShares_mono (Finset.erase_subset x.1 C) h
    · cases h
  · exact h

/-- A cluster that was not allocated stays out of it. -/
theorem freeShares_insert {b : κ} (hb : b ∉ C) (h : freeShares l C = some D) :
    freeShares l (insert b C) = some (insert b D) ∧ b ∉ D := by
  induction l generalizing C with
  | nil =>
      obtain rfl := Option.some.inj h
      exact ⟨rfl, hb⟩
  | cons x l ih =>
      rw [freeShares] at h ⊢
      split at h
      · rename_i hlast
        split at h
        · rename_i hmem
          have hne : x.1 ≠ b := fun heq => hb (heq ▸ hmem)
          have hrest := ih (fun hin => hb (Finset.mem_of_mem_erase hin)) h
          rw [if_pos hlast, if_pos (Finset.mem_insert_of_mem hmem), Finset.erase_insert_of_ne hne.symm]
          exact hrest
        · cases h
      · rename_i hmore
        rw [if_neg hmore]
        exact ih hb h

end

section

variable {s t : MbufState κ} {i k : ℕ} {m n : ClMbuf κ} {next c : List (ClMbuf κ)}

theorem mFreemLoop_eq (hc : s.chain i = c) :
    (mFreemLoop c.length s i).map (fun t => (t.chains, t.clusters)) =
      (freeShares (shares c) s.clusters).map fun D => (s.chains.set i [], D) := by
  induction c generalizing s with
  | nil =>
      have hself : s.setChain i [] = s := hc ▸ s.setChain_chain i
      have hchains : s.chains.set i [] = s.chains := congrArg MbufState.chains hself
      change some (s.chains, s.clusters) = some (s.chains.set i [], s.clusters)
      rw [hchains]
  | cons m next ih =>
      have hi : i < s.chains.length := s.lt_of_chain (by rw [hc]; exact List.cons_ne_nil m next)
      have hnext : (s.setChain i next).chain i = next := s.chain_setChain hi
      have hset : (s.setChain i next).chains.set i [] = s.chains.set i [] := List.set_set next
      rw [List.length_cons, mFreemLoop, shares_cons]
      cases hext : m.mExt with
      | none =>
          have hm : shares [m] = [] := by simp [shares, hext]
          rw [mFree_of_none hc hext, Option.bind_some, ih hnext, hset, hm, List.nil_append]
          rfl
      | some x =>
          have hm : shares [m] = [x] := by simp [shares, hext]
          rw [mFree_of_some hc hext, hm, List.singleton_append, freeShares]
          by_cases hlast : x.2 = 1
          · rw [if_pos hlast, if_pos hlast, MbufState.mclFree]
            by_cases hmem : x.1 ∈ s.clusters
            · have hmem' : x.1 ∈ (s.setChain i next).clusters := hmem
              rw [if_pos hmem', if_pos hmem, Option.bind_some]
              have hrest := ih (s := { s.setChain i next with
                clusters := (s.setChain i next).clusters.erase x.1
                returned := (x.1, (s.setChain i next).allShares.any fun y => y.1 = x.1) ::
                  (s.setChain i next).returned }) hnext
              rw [hrest]
              change Option.map (fun D => ((s.setChain i next).chains.set i [], D)) _ = _
              rw [hset]
              rfl
            · have hmem' : x.1 ∉ (s.setChain i next).clusters := hmem
              rw [if_neg hmem', if_neg hmem]
              rfl
          · rw [if_neg hlast, if_neg hlast, Option.bind_some, ih hnext, hset]
            rfl

/-- `m_freem`, when the clusters of the chain can be freed. -/
theorem mFreem_spec (hc : s.chain i = m :: next) {D : Finset κ}
    (hD : freeShares (shares (m :: next)) s.clusters = some D) :
    ∃ t, mFreem s i = some t ∧ t.chains = s.chains.set i [] ∧ t.clusters = D := by
  have h := mFreemLoop_eq hc
  rw [hD, Option.map_some] at h
  have ⟨t, ht, hfacts⟩ := Option.map_eq_some_iff.mp h
  have hne : s.chain i ≠ [] := hc ▸ List.cons_ne_nil m next
  refine ⟨t, ?_, (Prod.mk.inj hfacts).1, (Prod.mk.inj hfacts).2⟩
  rw [mFreem, if_neg hne, hc]
  exact ht

/-- What `m_freem` leaves. -/
theorem of_mFreem (hc : s.chain i = m :: next) (h : mFreem s i = some t) :
    t.chains = s.chains.set i [] ∧ freeShares (shares (m :: next)) s.clusters = some t.clusters := by
  have hne : s.chain i ≠ [] := hc ▸ List.cons_ne_nil m next
  have hloop := mFreemLoop_eq hc
  rw [mFreem, if_neg hne, hc] at h
  rw [h, Option.map_some] at hloop
  obtain ⟨D, hD, hfacts⟩ := Option.map_eq_some_iff.mp hloop.symm
  obtain ⟨hchains, rfl⟩ := Prod.mk.inj hfacts
  exact ⟨hchains.symm, hD⟩

/-! ## The three ends -/

variable {len : ℕ} {inPlace : Bool} {D E : Finset κ}

/-- The mbuf that bytes are pulled up into. -/
def pulledInto (m n : ClMbuf κ) (len : ℕ) : ClMbuf κ :=
  { m with bytes := m.bytes ++ n.bytes.take (min len n.mLen) }

/-- The mbuf that they are taken from. -/
def pulledFrom (n : ClMbuf κ) (len : ℕ) : ClMbuf κ := { n with bytes := n.bytes.drop (min len n.mLen) }

/-- The state in which the bytes have been taken. -/
def pulling (s : MbufState κ) (i k len : ℕ) (m n : ClMbuf κ) (next : List (ClMbuf κ)) : MbufState κ :=
  (s.setChain k [pulledInto m n len]).setChain i (pulledFrom n len :: next)

omit [DecidableEq κ] in
/-- An mbuf is put in front of a chain. -/
theorem chain_join (hik : i ≠ k) (hi : i < s.chains.length) :
    ((s.setChain i (m :: s.chain i)).setChain k []).chain i = m :: s.chain i := by
  rw [MbufState.chain_setChain_ne _ hik.symm, s.chain_setChain hi]

omit [DecidableEq κ] in
theorem shares_pulledFrom : shares (pulledFrom n len :: next) = shares (n :: next) :=
  shares_congr rfl

section

variable (hik : i ≠ k) (hi : s.chain i = n :: next) (hk : s.chain k = [m])
include hik hi hk

omit [DecidableEq κ] in
theorem pulling_chain (len : ℕ) : (pulling s i k len m n next).chain i = pulledFrom n len :: next ∧
    (pulling s i k len m n next).chain k = [pulledInto m n len] := by
  have hilt : i < s.chains.length := s.lt_of_chain (by rw [hi]; exact List.cons_ne_nil n next)
  have hklt : k < s.chains.length := s.lt_of_chain (by rw [hk]; exact List.cons_ne_nil m [])
  refine ⟨MbufState.chain_setChain _ (by rwa [MbufState.length_setChain]), ?_⟩
  rw [pulling, MbufState.chain_setChain_ne _ hik, s.chain_setChain hklt]

/-- The mbuf has more bytes than are wanted. -/
theorem pullupInto_lt (inPlace : Bool) (hlen : len < n.mLen) : ∃ t, mPullupInto s i k len inPlace = some t ∧
    t.chain i = pulledInto m n len ::
      { pulledFrom n len with mData := n.mData + min len n.mLen } :: next := by
  have hilt : i < s.chains.length := s.lt_of_chain (by rw [hi]; exact List.cons_ne_nil n next)
  have hleft : ClMbuf.mLen { n with bytes := n.bytes.drop (min len n.mLen) } ≠ 0 := by
    rw [ClMbuf.mLen, List.length_drop, ← ClMbuf.mLen]
    omega
  have hmore : ¬ 0 < len - min len n.mLen := by omega
  simp only [mPullupInto, hi, hk, if_pos hleft, Option.bind_some, if_neg hmore]
  refine ⟨_, rfl, ?_⟩
  rw [chain_join hik (by simpa using hilt), MbufState.chain_setChain _ (by simpa using hilt)]
  rfl

omit hik in
/-- The mbuf is used up, and the rest of the chain is freed with it. -/
theorem pullupInto_free (hlen : n.mLen ≤ len) : mPullupInto s i k len inPlace =
    (mFreem (pulling s i k len m n next) i).bind fun t =>
      if n.mLen < len then if inPlace then none else mFreem t k
      else some ((t.setChain i (pulledInto m n len :: t.chain i)).setChain k []) := by
  have hleft : ¬ ClMbuf.mLen { n with bytes := n.bytes.drop (min len n.mLen) } ≠ 0 := by
    rw [ClMbuf.mLen, List.length_drop, ← ClMbuf.mLen]
    omega
  have hmore : 0 < len - min len n.mLen ↔ n.mLen < len := by omega
  simp only [mPullupInto, hi, hk, if_neg hleft, hmore]
  rfl

/-- The mbuf has just the bytes that are wanted. -/
theorem pullupInto_eq (inPlace : Bool) (hlen : len = n.mLen)
    (hfree : (freeShares (shares (n :: next)) s.clusters).isSome) :
    ∃ t, mPullupInto s i k len inPlace = some t ∧ t.chain i = [pulledInto m n len] := by
  have hilt : i < s.chains.length := s.lt_of_chain (by rw [hi]; exact List.cons_ne_nil n next)
  have ⟨hui, _⟩ := pulling_chain hik hi hk len
  have ⟨D, hD⟩ := Option.isSome_iff_exists.mp hfree
  have ⟨t, ht, hchains, _⟩ := mFreem_spec hui (shares_pulledFrom.symm ▸ hD)
  have hnil : t.chain i = [] := by
    rw [MbufState.chain, hchains]
    simp [pulling, MbufState.setChain, hilt]
  rw [pullupInto_free hi hk hlen.ge, ht, Option.bind_some, if_neg (by omega)]
  refine ⟨_, rfl, ?_⟩
  rw [chain_join hik (by rw [hchains]; simpa [pulling] using hilt), hnil]

/-- The mbuf has too few bytes: both chains are freed. -/
theorem pullupInto_gt (hlen : n.mLen < len) (hD : freeShares (shares (n :: next)) s.clusters = some D)
    (hE : freeShares (shares [m]) D = some E) :
    ∃ t, mPullupInto s i k len false = some t ∧ t.clusters = E ∧
      t.chains = (s.chains.set k []).set i [] := by
  have hilt : i < s.chains.length := s.lt_of_chain (by rw [hi]; exact List.cons_ne_nil n next)
  have ⟨hui, huk⟩ := pulling_chain hik hi hk len
  have ⟨t, ht, hchains, hclusters⟩ := mFreem_spec hui (shares_pulledFrom.symm ▸ hD)
  have htk : t.chain k = [pulledInto m n len] := by
    have hset : t.chain k = ((pulling s i k len m n next).setChain i []).chain k :=
      MbufState.chain_congr hchains k
    rw [hset, MbufState.chain_setChain_ne _ hik, huk]
  have hshares : shares [pulledInto m n len] = shares [m] := shares_congr rfl
  have ⟨u, hu, huchains, huclusters⟩ := mFreem_spec htk (hshares.symm ▸ hclusters.symm ▸ hE)
  rw [pullupInto_free hi hk hlen.le, ht, Option.bind_some, if_pos hlen]
  refine ⟨u, hu, huclusters, ?_⟩
  rw [huchains, hchains]
  simp only [pulling, MbufState.setChain, List.set_set]
  rw [List.set_comm _ _ hik, List.set_set]

end

/-! ## Into a new mbuf -/

/-- The new mbuf counts for no cluster in use. -/
def NewExt (s u : MbufState κ) (m : ClMbuf κ) : Prop :=
  (m.mExt = none ∧ u.clusters = s.clusters) ∨
    ∃ b ∉ s.clusters, m.mExt = some (b, 1) ∧ u.clusters = insert b s.clusters

variable {mem : Option κ}

/-- The new mbuf, before it gets a header. -/
theorem pullupNew_mbuf (hmem : mHLEN < len → mem ≠ none) (hfresh : ∀ b ∈ mem, b ∉ s.clusters) (mType : ℤ) :
    ∃ u m, (if mHLEN < len then mClget (s.push [mGetInit mType]) s.chains.length mem
        else some (s.push [mGetInit mType])) = some u ∧
      u.chains = s.chains ++ [[m]] ∧ m.bytes = [] ∧ m.mPkthdr = none ∧ NewExt s u m := by
  by_cases hbig : mHLEN < len
  · have ⟨b, hb⟩ := Option.ne_none_iff_exists'.mp (hmem hbig)
    have hk : (s.push [mGetInit mType]).chain s.chains.length = [mGetInit mType] := s.chain_push rfl
    refine ⟨{ (s.push [mGetInit mType]).setChain s.chains.length [(mGetInit mType).clget b] with
      clusters := insert b s.clusters }, (mGetInit mType).clget b, ?_, ?_, rfl, rfl,
      .inr ⟨b, hfresh b hb, rfl, rfl⟩⟩
    · rw [if_pos hbig, hb]
      simp only [mClget, hk]
      rfl
    · simp [MbufState.push, MbufState.setChain]
  · exact ⟨s.push [mGetInit mType], mGetInit mType, if_neg hbig, rfl, rfl, rfl, .inl ⟨rfl, rfl⟩⟩

/-- The new mbuf, ready for the bytes. -/
theorem pullupNew_ready (hi : s.chain i = n :: next) (hmem : mHLEN < len → mem ≠ none)
    (hfresh : ∀ b ∈ mem, b ∉ s.clusters) :
    ∃ u m n', mPullupNew s i s.chains.length len n next mem = mPullupInto u i s.chains.length len false ∧
      u.chain i = n' :: next ∧ u.chain s.chains.length = [m] ∧
      n'.bytes = n.bytes ∧ n'.mExt = n.mExt ∧ m.bytes = [] ∧ m.mPkthdr = n.mPkthdr ∧
      (u.chains.set s.chains.length []).set i [] = s.chains.set i [] ++ [[]] ∧ NewExt s u m := by
  have hilt : i < s.chains.length := s.lt_of_chain (by rw [hi]; exact List.cons_ne_nil n next)
  have ⟨u, m, hu, hchains, hbytes, hhdr, hnew⟩ := pullupNew_mbuf hmem hfresh n.mType
  have hui : u.chain i = n :: next := by
    rw [MbufState.chain, hchains, List.getD_append _ _ _ _ hilt]
    exact hi
  have huk : u.chain s.chains.length = [m] := by
    rw [MbufState.chain, hchains]
    simp
  rw [mPullupNew, hu, Option.bind_some]
  cases hhdr' : n.mPkthdr with
  | none =>
      refine ⟨u, m, n, rfl, hui, huk, rfl, rfl, hbytes, hhdr, ?_, hnew⟩
      rw [hchains]
      simp [List.set_append_left, hilt]
  | some l =>
      have hlen : u.chains.length = s.chains.length + 1 := by rw [hchains, List.length_append]; rfl
      refine ⟨_, mMovePkthdr m n, { n with mPkthdr := none }, rfl, ?_, ?_, rfl, rfl, hbytes, hhdr', ?_, ?_⟩
      · exact MbufState.chain_setChain _ (by rw [MbufState.length_setChain, hlen]; omega)
      · rw [MbufState.chain_setChain_ne _ hilt.ne, MbufState.chain_setChain _ (by omega), huk]
        rfl
      · simp only [MbufState.setChain]
        rw [List.set_comm _ _ hilt.ne, List.set_set, List.set_set, hchains]
        simp [List.set_append_left, hilt]
      · exact hnew

/-! ## When it is right -/

omit [DecidableEq κ] in
theorem mLen_pulledInto : (pulledInto m n len).mLen = m.mLen + min len n.mLen := by
  rw [pulledInto, ClMbuf.mLen, List.length_append, List.length_take, ← ClMbuf.mLen, ← ClMbuf.mLen]
  omega

omit [DecidableEq κ] in
/-- Taking bytes out of one mbuf and putting them behind another one keeps them. -/
theorem clBytes_pull {c : List (ClMbuf κ)} {d : ℕ} :
    clBytes (pulledInto m n len :: { pulledFrom n len with mData := d } :: c) =
      clBytes (m :: n :: c) := by
  simp only [clBytes_cons, pulledInto, pulledFrom, List.append_assoc]
  rw [← List.append_assoc (n.bytes.take _), List.take_append_drop]

omit [DecidableEq κ] in
/-- Where the last bytes are all that an mbuf has, the rest of the chain must have none. -/
theorem clBytes_pull_all (hlen : len = n.mLen) :
    clBytes [pulledInto m n len] = clBytes (m :: n :: next) ↔ clBytes next = [] := by
  have htake : n.bytes.take (min len n.mLen) = n.bytes := by
    rw [hlen, Nat.min_self]
    exact List.take_of_length_le le_rfl
  simp only [clBytes_cons, pulledInto, clBytes_nil, List.append_nil, htake, List.append_cancel_left_eq,
    List.self_eq_append_right]

omit [DecidableEq κ] in
theorem front_chain (hi : s.chain i = n :: next) :
    ((s.setChain i next).push [n]).chain i = next ∧
      ((s.setChain i next).push [n]).chain s.chains.length = [n] := by
  have hilt : i < s.chains.length := s.lt_of_chain (by rw [hi]; exact List.cons_ne_nil n next)
  refine ⟨?_, MbufState.chain_push _ (MbufState.length_setChain s).symm⟩
  rw [MbufState.chain_push_of_lt _ (by rwa [MbufState.length_setChain]), s.chain_setChain hilt]

/-- A call whose result has the bytes, in a domain where they are enough. -/
theorem pullupRight_of_chain {mget : Bool} {c : List (ClMbuf κ)} (hpull : mPullup s i len mget mem = some t)
    (ht : t.chain i = m :: c) (hlen : len ≤ m.mLen) (hbytes : clBytes (m :: c) = clBytes (s.chain i))
    (hhdr : m.mPkthdr = chainHdr (s.chain i)) : PullupRight s i len mget mem := by
  have hshort : ¬ (clBytes (s.chain i)).length < len := by
    rw [← hbytes, length_clBytes_cons]
    omega
  refine ⟨t, hpull, fun h => absurd h hshort, fun _ _ => ?_⟩
  rw [ht]
  exact ⟨hbytes, hhdr, m, rfl, hlen⟩

/-- A call that has freed the mbufs behind the first one. -/
theorem pullupRight_of_single {mget : Bool} (hpull : mPullup s i len mget mem = some t)
    (ht : t.chain i = [m]) (hlen : len ≤ m.mLen) (hhdr : m.mPkthdr = chainHdr (s.chain i))
    (hdom : len ≤ min (clBytes (s.chain i)).length mHLEN) :
    PullupRight s i len mget mem ↔ clBytes [m] = clBytes (s.chain i) := by
  constructor
  · rintro ⟨t', ht', _, hright⟩
    obtain rfl := Option.some.inj (hpull.symm.trans ht')
    have hbytes := (hright hdom (by rw [ht]; exact List.cons_ne_nil m [])).1
    rwa [ht] at hbytes
  · exact fun hbytes => pullupRight_of_chain hpull ht hlen hbytes hhdr

/-- The first mbuf has room for the bytes that it lacks. -/
theorem pullupRight_inPlace {mget : Bool} (hi : s.chain i = n :: next)
    (hfree : (freeShares (shares (n :: next)) s.clusters).isSome) (hfront : PullsInPlace n next len)
    (hdom : len ≤ min (clBytes (n :: next)).length mHLEN ∨ (clBytes (n :: next)).length < len) :
    PullupRight s i len mget mem ↔ PullupFits len mget mem (n :: next) := by
  have hilt : i < s.chains.length := s.lt_of_chain (by rw [hi]; exact List.cons_ne_nil n next)
  have hhdr : n.mPkthdr = chainHdr (s.chain i) := by rw [hi]; rfl
  rw [PullupFits, if_pos hfront]
  by_cases hle : len ≤ n.mLen
  · have hpull : mPullup s i len mget mem = some s := by
      simp only [mPullup, hi, if_pos hfront, if_pos hle]
    exact iff_of_true (pullupRight_of_chain hpull hi hle (by rw [hi]) hhdr) fun h => absurd hle h.not_ge
  obtain ⟨n₂, next₂, rfl⟩ := CountInv.PullsInPlace.exists_next hfront
  obtain ⟨hui, huk⟩ := front_chain hi
  have hpull : mPullup s i len mget mem =
      mPullupInto ((s.setChain i (n₂ :: next₂)).push [n]) i s.chains.length (len - n.mLen) true := by
    simp only [mPullup, hi, if_pos hfront, if_neg hle]
  have htotal : (clBytes (n :: n₂ :: next₂)).length = n.mLen + (n₂.mLen + (clBytes next₂).length) := by
    rw [length_clBytes_cons, length_clBytes_cons]
  rw [imp_iff_right (not_le.mp hle)]
  simp only [List.head?_cons, Option.mem_some_iff, forall_eq']
  rcases lt_trichotomy (len - n.mLen) n₂.mLen with hless | heq | hgt
  · obtain ⟨t, ht, hchain⟩ := pullupInto_lt hilt.ne hui huk true hless
    refine iff_of_true (pullupRight_of_chain (hpull.trans ht) hchain ?_ ?_ hhdr) (.inl (by omega))
    · rw [mLen_pulledInto]
      omega
    · rw [clBytes_pull, hi]
  · have hrest : (freeShares (shares (n₂ :: next₂)) s.clusters).isSome := by
      rw [shares_cons] at hfree
      cases hext : n.mExt with
      | none =>
          have hn : shares [n] = [] := by simp [shares, hext]
          rwa [hn, List.nil_append] at hfree
      | some x =>
          have hn : shares [n] = [x] := by simp [shares, hext]
          rw [hn] at hfree
          exact freeShares_tail hfree
    obtain ⟨t, ht, hchain⟩ := pullupInto_eq hilt.ne hui huk true heq hrest
    have hdom' : len ≤ min (clBytes (s.chain i)).length mHLEN := by
      rw [hi]
      omega
    rw [pullupRight_of_single (hpull.trans ht) hchain (by rw [mLen_pulledInto]; omega) hhdr hdom', hi,
      clBytes_pull_all heq, ← List.length_eq_zero_iff]
    omega
  · refine iff_of_false ?_ (by omega)
    rintro ⟨t, ht, _⟩
    rw [hpull, CountInv.mPullupInto_none hui huk hgt] at ht
    cases ht

/-- A variable that holds no chain. -/
theorem getD_concat_nil {α : Type*} (l : List (List α)) (j : ℕ) :
    (l ++ [[]]).getD j [] = l.getD j [] := by
  rcases Nat.lt_or_ge j l.length with h | h
  · exact List.getD_append _ _ _ _ h
  · rw [List.getD_append_right _ _ _ _ h, List.getD_eq_default _ _ h]
    cases j - l.length <;> rfl

/-- Otherwise the bytes go to a new mbuf. -/
theorem pullupRight_new {t' : MbufState κ} (hi : s.chain i = n :: next) (hfree : mFreem s i = some t')
    (hfront : ¬ PullsInPlace n next len) (hsize : ¬ mAXMCLBYTES < len) (hfresh : ∀ b ∈ mem, b ∉ s.clusters)
    (hdom : len ≤ min (clBytes (n :: next)).length mHLEN ∨ (clBytes (n :: next)).length < len) :
    PullupRight s i len true mem ↔ PullupFits len true mem (n :: next) := by
  have hilt : i < s.chains.length := s.lt_of_chain (by rw [hi]; exact List.cons_ne_nil n next)
  have hnew : ¬ (mAXMCLBYTES < len ∨ true = false) := by simpa using hsize
  have hpull : mPullup s i len true mem = mPullupNew s i s.chains.length len n next mem := by
    simp only [mPullup, hi, if_neg hfront, if_neg hnew]
  obtain ⟨hchains', hD⟩ := of_mFreem hi hfree
  have htotal : (clBytes (n :: next)).length = n.mLen + (clBytes next).length := length_clBytes_cons
  rw [PullupFits, if_neg hfront, if_neg hnew]
  by_cases hmem : mHLEN < len → mem ≠ none
  · obtain ⟨u, m, n', hready, hui, huk, hnbytes, hnext, hmbytes, hmhdr, hset, hext⟩ :=
      pullupNew_ready hi hmem hfresh
    have hn : n'.mLen = n.mLen := congrArg List.length hnbytes
    have hall : clBytes (m :: n' :: next) = clBytes (s.chain i) := by
      rw [hi, clBytes_cons, clBytes_cons, clBytes_cons, hmbytes, hnbytes, List.nil_append]
    have hhdr : m.mPkthdr = chainHdr (s.chain i) := by
      rw [hi]
      exact hmhdr
    have hm : m.mLen = 0 := by rw [ClMbuf.mLen, hmbytes, List.length_nil]
    have hshares : shares (n' :: next) = shares (n :: next) := CountInv.shares_head hnext
    have hfreeu : ∃ D, freeShares (shares (n' :: next)) u.clusters = some D ∧
        freeShares (shares [m]) D = some t'.clusters := by
      rw [hshares]
      rcases hext with ⟨hnone, hclusters⟩ | ⟨b, hb, hsome, hclusters⟩
      · have hm : shares [m] = [] := by simp [shares, hnone]
        rw [hclusters, hm]
        exact ⟨t'.clusters, hD, rfl⟩
      · have hm : shares [m] = [(b, 1)] := by simp [shares, hsome]
        obtain ⟨hins, hout⟩ := freeShares_insert hb hD
        rw [hclusters, hm]
        refine ⟨insert b t'.clusters, hins, ?_⟩
        rw [freeShares, if_pos rfl, if_pos (Finset.mem_insert_self b _), Finset.erase_insert hout]
        rfl
    rw [and_iff_right hmem]
    rcases lt_trichotomy len n.mLen with hless | heq | hgt
    · obtain ⟨t, ht, hchain⟩ := pullupInto_lt hilt.ne hui huk false (hn.symm ▸ hless)
      refine iff_of_true (pullupRight_of_chain ((hpull.trans hready).trans ht) hchain ?_ ?_ hhdr)
        fun h => absurd h hless.ne'
      · rw [mLen_pulledInto, hn]
        omega
      · rw [clBytes_pull, hall]
    · obtain ⟨D, hfreed, _⟩ := hfreeu
      obtain ⟨t, ht, hchain⟩ := pullupInto_eq hilt.ne hui huk false (hn.symm ▸ heq) (by rw [hfreed]; rfl)
      have hdom' : len ≤ min (clBytes (s.chain i)).length mHLEN := by
        rw [hi]
        omega
      rw [pullupRight_of_single ((hpull.trans hready).trans ht) hchain
        (by rw [mLen_pulledInto, hn]; omega) hhdr hdom', ← hall, clBytes_pull_all (hn.symm ▸ heq),
        ← List.length_eq_zero_iff, imp_iff_right heq.symm]
      omega
    · obtain ⟨D, hfreed, hfreed'⟩ := hfreeu
      obtain ⟨t, ht, hclusters, hchains⟩ := pullupInto_gt hilt.ne hui huk (hn.symm ▸ hgt) hfreed hfreed'
      refine iff_of_true ⟨t, (hpull.trans hready).trans ht, ?_, ?_⟩ fun h => absurd h hgt.ne
      · intro _ t'' ht''
        obtain rfl := Option.some.inj (hfree.symm.trans ht'')
        refine ⟨fun j => ?_, hclusters⟩
        rw [MbufState.chain, MbufState.chain, hchains, hset, hchains', getD_concat_nil]
      · intro _ hne
        refine absurd ?_ hne
        rw [MbufState.chain, hchains, hset, getD_concat_nil]
        simp [hilt]
  · refine iff_of_false ?_ fun h => hmem h.1
    push Not at hmem
    obtain ⟨hbig, hnone⟩ := hmem
    rintro ⟨t, ht, _⟩
    rw [hpull, mPullupNew, if_pos hbig, hnone] at ht
    simp [mClget] at ht

/-- **`m_pullup` is right exactly when the last bytes come from an mbuf that has more, or is the last one with
bytes.** The chain is one that `m_freem` can free, and the cluster that `kzalloc` finds is not in use. -/
theorem pullupRight_iff {s : MbufState κ} {i len : ℕ} {mget : Bool} {mem : Option κ}
    (hfree : (mFreem s i).isSome) (hfresh : ∀ b ∈ mem, b ∉ s.clusters)
    (hdom : len ≤ min (clBytes (s.chain i)).length mHLEN ∨ (clBytes (s.chain i)).length < len) :
    PullupRight s i len mget mem ↔ PullupFits len mget mem (s.chain i) := by
  have ⟨t', ht'⟩ := Option.isSome_iff_exists.mp hfree
  cases hi : s.chain i with
  | nil =>
      rw [mFreem, if_pos hi] at ht'
      cases ht'
  | cons n next =>
      rw [hi] at hdom
      by_cases hfront : PullsInPlace n next len
      · have hD : (freeShares (shares (n :: next)) s.clusters).isSome := by
          rw [(of_mFreem hi ht').2]
          rfl
        exact pullupRight_inPlace hi hD hfront hdom
      by_cases hbad : mAXMCLBYTES < len ∨ mget = false
      · have hpull : mPullup s i len mget mem = some t' := by
          simp only [mPullup, hi, if_neg hfront, if_pos hbad, ht']
        have hnil : t'.chain i = [] := by
          have hilt : i < s.chains.length := s.lt_of_chain (by rw [hi]; exact List.cons_ne_nil n next)
          rw [MbufState.chain, (of_mFreem hi ht').1]
          simp [hilt]
        rw [PullupFits, if_neg hfront, if_pos hbad]
        refine iff_of_true ⟨t', hpull, ?_, fun _ hne => absurd hnil hne⟩ trivial
        intro _ t'' ht''
        obtain rfl := Option.some.inj (ht'.symm.trans ht'')
        exact ⟨fun _ => rfl, rfl⟩
      · push Not at hbad
        obtain rfl : mget = true := by simpa using hbad.2
        exact pullupRight_new hi ht' hfront (not_lt.mpr hbad.1) hfresh hdom

end

/-! ## What is left in front -/

section

variable {s t : MbufState κ} {i k len : ℕ} {m n : ClMbuf κ} {next : List (ClMbuf κ)} {mem : Option κ}
  {mget inPlace : Bool}

theorem mFreem_chain (h : mFreem s i = some t) : t.chain i = [] ∧ ∀ j ≠ i, t.chain j = s.chain j := by
  cases hc : s.chain i with
  | nil =>
      rw [mFreem, if_pos hc] at h
      cases h
  | cons m next =>
      have hi : i < s.chains.length := s.lt_of_chain (by rw [hc]; exact List.cons_ne_nil m next)
      have hchains := (of_mFreem hc h).1
      refine ⟨?_, fun j hj => ?_⟩
      · rw [MbufState.chain, hchains]
        simp [hi]
      · exact (MbufState.chain_congr (s := s.setChain i []) hchains j).trans (MbufState.chain_setChain_ne s hj.symm)

/-- If something is left, it begins with the mbuf that has the bytes; what follows is the rest, or nothing. -/
theorem pullupInto_left (hik : i ≠ k) (hi : s.chain i = n :: next) (hk : s.chain k = [m])
    (h : mPullupInto s i k len inPlace = some t) (hne : t.chain i ≠ []) :
    len ≤ n.mLen ∧ ∃ c, t.chain i = pulledInto m n len :: c ∧
      clBytes c <+: (n.bytes.drop len) ++ clBytes next ∧ c.length ≤ next.length + 1 := by
  rcases lt_or_ge len n.mLen with hlt | hle
  · obtain ⟨u, hu, hchain⟩ := pullupInto_lt hik hi hk inPlace hlt
    obtain rfl := Option.some.inj (hu.symm.trans h)
    refine ⟨hlt.le, _, hchain, ?_, le_rfl⟩
    rw [clBytes_cons, pulledFrom, Nat.min_eq_left hlt.le]
  · rw [pullupInto_free hi hk hle] at h
    obtain ⟨u, hu, hrest⟩ := Option.bind_eq_some_iff.mp h
    obtain ⟨hui, huj⟩ := mFreem_chain hu
    split_ifs at hrest with hlt hplace
    · refine absurd ?_ hne
      rw [(mFreem_chain hrest).2 i hik, hui]
    · have hilt : i < u.chains.length := by
        by_contra hout
        refine hne ?_
        obtain rfl := Option.some.inj hrest
        simp [MbufState.chain, MbufState.setChain, hout]
      obtain rfl := Option.some.inj hrest
      rw [chain_join hik hilt, hui]
      exact ⟨by omega, [], rfl, List.nil_prefix, Nat.zero_le _⟩

omit [DecidableEq κ] in
/-- What `m_pullup` leaves in front: bytes of the chain, with the header of the chain. -/
structure PullLeft (c d : List (ClMbuf κ)) (len : ℕ) : Prop where
  bytes : clBytes d <+: clBytes c
  head : ∃ m ∈ d.head?, len ≤ m.mLen
  hdr : chainHdr d = chainHdr c
  length : d.length ≤ c.length + 1

theorem pullupInto_bytes (hik : i ≠ k) (hi : s.chain i = n :: next) (hk : s.chain k = [m])
    (h : mPullupInto s i k len inPlace = some t) (hne : t.chain i ≠ []) :
    ∃ c, t.chain i = c ∧ clBytes c <+: m.bytes ++ n.bytes ++ clBytes next ∧
      (∃ m' ∈ c.head?, m.mLen + len ≤ m'.mLen ∧ m'.mPkthdr = m.mPkthdr) ∧ c.length ≤ next.length + 2 := by
  obtain ⟨hle, c, hc, hprefix, hlen⟩ := pullupInto_left hik hi hk h hne
  refine ⟨_, hc, ?_, ⟨_, rfl, ?_, rfl⟩, by rw [List.length_cons]; omega⟩
  · rw [clBytes_cons, pulledInto, Nat.min_eq_left hle, List.append_assoc, List.append_assoc,
      List.prefix_append_right_inj]
    rw [← List.take_append_drop len n.bytes, List.append_assoc (n.bytes.take len), List.take_append_drop,
      List.prefix_append_right_inj]
    exact hprefix
  · rw [mLen_pulledInto, Nat.min_eq_left hle]

/-- **`m_pullup` makes nothing up**: what it leaves are the first bytes of the chain, and enough of them are in the
first mbuf. -/
theorem mPullup_left (h : mPullup s i len mget mem = some t) (hlen : len ≤ mHLEN)
    (hfresh : ∀ b ∈ mem, b ∉ s.clusters) (hne : t.chain i ≠ []) :
    PullLeft (s.chain i) (t.chain i) len := by
  rw [mPullup] at h
  cases hi : s.chain i with
  | nil =>
      rw [hi] at h
      cases h
  | cons n next =>
      have hilt : i < s.chains.length := s.lt_of_chain (by rw [hi]; exact List.cons_ne_nil n next)
      simp only [hi] at h
      by_cases hfront : PullsInPlace n next len
      · rw [if_pos hfront] at h
        split_ifs at h with hle
        · obtain rfl := Option.some.inj h
          rw [hi]
          exact ⟨List.prefix_rfl, ⟨n, rfl, hle⟩, rfl, Nat.le_succ _⟩
        · obtain ⟨n₂, next₂, rfl⟩ := CountInv.PullsInPlace.exists_next hfront
          obtain ⟨hui, huk⟩ := front_chain hi
          obtain ⟨c, hc, hprefix, ⟨m', hm', hle', hhdr⟩, hcount⟩ := pullupInto_bytes hilt.ne hui huk h hne
          rw [hc]
          refine ⟨?_, ⟨m', hm', by omega⟩, ?_, ?_⟩
          · rwa [clBytes_cons, clBytes_cons, ← List.append_assoc]
          · rw [chainHdr, Option.mem_def.mp hm']
            exact hhdr
          · rw [List.length_cons, List.length_cons]
            omega
      · rw [if_neg hfront] at h
        split_ifs at h with hbad
        · exact absurd (mFreem_chain h).1 hne
        · obtain ⟨u, m, n', hnew, hui, huk, hbytes, -, hnil, hhdr, -⟩ :=
            pullupNew_ready hi (fun hbig => absurd hbig hlen.not_gt) hfresh
          rw [hnew] at h
          obtain ⟨c, hc, hprefix, ⟨m', hm', hle', hhdr'⟩, hcount⟩ := pullupInto_bytes hilt.ne hui huk h hne
          rw [hc]
          refine ⟨?_, ⟨m', hm', by omega⟩, ?_, by simpa using hcount⟩
          · rwa [hnil, List.nil_append, hbytes, ← clBytes_cons] at hprefix
          · rw [chainHdr, Option.mem_def.mp hm']
            exact hhdr'.trans hhdr

end

/-- Three mbufs of a packet. -/
def pullupChain : MbufState ℕ where
  chains := [[⟨1, false, some 5, 8, [1], none⟩, ⟨1, false, none, 0, [2, 3], none⟩,
    ⟨1, false, none, 0, [4, 5], none⟩]]
  clusters := ∅
  returned := []

/-- Two bytes are pulled up, and one byte stays in the second mbuf. -/
theorem pullupRight_iff_two : PullupRight pullupChain 0 2 true none :=
  (pullupRight_iff (by decide) (by decide) (by decide)).mpr (by decide)

/-- Three bytes are pulled up: the second mbuf is used up, and the third one is freed with it. -/
theorem pullup_can_lose_rest :
    ¬ ∀ (s : MbufState ℕ) (i len : ℕ) (mget : Bool) (mem : Option ℕ), (mFreem s i).isSome →
      (∀ b ∈ mem, b ∉ s.clusters) →
        (len ≤ min (clBytes (s.chain i)).length mHLEN ∨ (clBytes (s.chain i)).length < len) →
          PullupRight s i len mget mem := by
  intro hall
  have ⟨t, ht, _, hright⟩ := hall pullupChain 0 3 true none (by decide) (by decide) (by decide)
  have hres : (mPullup pullupChain 0 3 true none).map (fun t => clBytes (t.chain 0)) = some [1, 2, 3] := by
    decide +kernel
  rw [ht] at hres
  have hbytes : clBytes (t.chain 0) = [1, 2, 3] := Option.some.inj hres
  have hne : t.chain 0 ≠ [] := by
    intro hnil
    rw [hnil] at hbytes
    cases hbytes
  have hkept := (hright (by decide) hne).1
  rw [hbytes] at hkept
  exact absurd hkept (by decide)

end Shaunos.Net
