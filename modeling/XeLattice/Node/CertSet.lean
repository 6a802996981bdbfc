import XeLattice.Go.Slices
import XeLattice.Retention
import XeLattice.Table

/-!
# Retained certificates

`node/certset.go` keeps the performance certificates of every provider, at most
`certRetentionPerProvider` of them, and finds them by hash and by provider.

* **`orderIndependent_iff`**: the order does not matter exactly when issue times are separated.
-/

set_option autoImplicit false

namespace Xe

/-! ## The set of the source -/

/-- `perf.Certificate`, as far as the set reads it. -/
structure Certificate where
  provider : Str
  issuedAt : Int64
  hash : Str
  deriving DecidableEq

/-- `certRetentionPerProvider`. -/
def certRetentionPerProvider : ℕ := 256

/-- The time of issue. -/
def Certificate.issued (c : Certificate) : ℤ :=
  c.issuedAt.toInt

/-- `certSet`. -/
structure CertSet where
  byHash : Table Str Certificate
  byProvider : Table Str (List Certificate)

namespace CertSet

/-- `newCertSet`. -/
def new : CertSet := ⟨.empty, .empty⟩

/-- The certificates of a provider, the oldest first. -/
def listOf (cs : CertSet) (provider : Str) : List Certificate :=
  (cs.byProvider.get provider).getD []

/-- `put`: whether the certificate was added, the hashes that were evicted, and the set.  The stable
sort puts a certificate behind those of its issue time. -/
def put (cs : CertSet) (cert : Certificate) : Bool × List Str × CertSet :=
  if (cs.byHash.get cert.hash).isSome then (false, [], cs)
  else if Retention.refuses Certificate.issued certRetentionPerProvider (cs.listOf cert.provider)
      cert then (false, [], cs)
  else
    let list := Retention.sorted Certificate.issued (cs.listOf cert.provider) cert
    let excess := list.length - certRetentionPerProvider
    (true, (list.take excess).map Certificate.hash,
      { byHash := (list.take excess).foldl (fun t oldest => t.del oldest.hash)
          (cs.byHash.set cert.hash cert)
        byProvider := cs.byProvider.set cert.provider (list.drop excess) })

/-- `get`. -/
def get (cs : CertSet) (hash : Str) : Option Certificate :=
  cs.byHash.get hash

/-- `current`. -/
def current (cs : CertSet) (provider : Str) : Option Certificate :=
  (cs.listOf provider).getLast?

/-- Certificates that arrive one after the other. -/
def fed (certs : List Certificate) : CertSet :=
  certs.foldl (fun cs c => (cs.put c).2.2) new

end CertSet

/-! ## What the set holds -/

/-- What a set is like that was fed certificates of `S`. -/
structure CertSet.Holds (S : Set Certificate) (cs : CertSet) : Prop where
  indexed : ∀ h c, cs.byHash.get h = some c ↔ c.hash = h ∧ c ∈ cs.listOf c.provider
  own : ∀ p, ∀ c ∈ cs.listOf p, c.provider = p ∧ c ∈ S
  kept : ∀ p, ∃ F, Retention.Kept Certificate.issued certRetentionPerProvider F (cs.listOf p)

section Holds

open Retention

variable {S : Set Certificate} {cs : CertSet} {c : Certificate}

theorem retention_pos : 0 < certRetentionPerProvider := by decide

theorem get_foldl_del (l : List Certificate) (t : Table Str Certificate) (h : Str) :
    (l.foldl (fun t oldest => t.del oldest.hash) t).get h =
      if h ∈ l.map Certificate.hash then none else t.get h := by
  induction l generalizing t with
  | nil => simp
  | cons z l ih =>
    rw [List.foldl_cons, ih, Table.get_del]
    by_cases hz : h = z.hash <;> by_cases hl : h ∈ l.map Certificate.hash <;> simp [hz, hl]

theorem CertSet.Holds.isSome_iff (h : cs.Holds S) (hinj : Set.InjOn Certificate.hash S)
    (hc : c ∈ S) : (cs.byHash.get c.hash).isSome ↔ c ∈ cs.listOf c.provider := by
  rw [Option.isSome_iff_exists]
  constructor
  · rintro ⟨d, hd⟩
    obtain ⟨hhash, hmem⟩ := (h.indexed _ _).mp hd
    rwa [← hinj (h.own _ d hmem).2 hc hhash]
  · intro hmem
    exact ⟨c, (h.indexed _ _).mpr ⟨rfl, hmem⟩⟩

/-- The provider's list takes the certificate as a bounded list does, and no other list changes. -/
theorem CertSet.Holds.listOf_put (h : cs.Holds S) (hinj : Set.InjOn Certificate.hash S)
    (hc : c ∈ S) (p : Str) :
    (cs.put c).2.2.listOf p =
      if p = c.provider then
        Retention.put Certificate.issued certRetentionPerProvider (cs.listOf c.provider) c
      else cs.listOf p := by
  have hmem := h.isSome_iff hinj hc
  unfold CertSet.put Retention.put
  by_cases hin : c ∈ cs.listOf c.provider
  · rw [if_pos (hmem.mpr hin), if_pos hin]
    split_ifs with hp
    · rw [hp]
    · rfl
  rw [if_neg (mt hmem.mp hin), if_neg hin]
  split_ifs with hrefused hp hp
  · rw [hp]
  · rfl
  · simp only [hp, CertSet.listOf, Table.get_set_self, Option.getD_some]
  · simp only [CertSet.listOf, Table.get_set_of_ne _ hp]

/-- What an added certificate does to the index: what is given up for it is not found any more. -/
theorem CertSet.Holds.put_cases (h : cs.Holds S) (hinj : Set.InjOn Certificate.hash S)
    (hc : c ∈ S) :
    (cs.put c).2.2 = cs ∨
      c ∉ cs.listOf c.provider ∧ ∃ evicted,
        sorted Certificate.issued (cs.listOf c.provider) c =
          evicted ++ (cs.put c).2.2.listOf c.provider ∧
        ∀ hash, (cs.put c).2.2.byHash.get hash =
          if hash ∈ evicted.map Certificate.hash then none
          else if hash = c.hash then some c else cs.byHash.get hash := by
  have hmem := h.isSome_iff hinj hc
  unfold CertSet.put
  split_ifs with hin hrefused
  · exact .inl rfl
  · exact .inl rfl
  · let list := sorted Certificate.issued (cs.listOf c.provider) c
    refine .inr ⟨mt hmem.mpr hin, list.take (list.length - certRetentionPerProvider), ?_,
      fun hash => ?_⟩
    · simp only [CertSet.listOf, Table.get_set_self, Option.getD_some]
      exact (List.take_append_drop _ _).symm
    · simp only [get_foldl_del, Table.get_set, list]

theorem CertSet.Holds.put (h : cs.Holds S) (hinj : Set.InjOn Certificate.hash S) (hc : c ∈ S) :
    (cs.put c).2.2.Holds S := by
  rcases h.put_cases hinj hc with heq | ⟨hnew, evicted, hsorted, hindex⟩
  · rwa [heq]
  obtain ⟨F, hF⟩ := h.kept c.provider
  have hlist := h.listOf_put hinj hc
  have hperm := perm_sorted Certificate.issued (cs.listOf c.provider) c
  rw [hsorted] at hperm
  -- What is kept and what is given up, together and apart.
  have hsub : ∀ d, d ∈ evicted ∨ d ∈ (cs.put c).2.2.listOf c.provider ↔
      d = c ∨ d ∈ cs.listOf c.provider := fun d => by
    rw [← List.mem_append, hperm.mem_iff, List.mem_cons]
  have hdisjoint : ∀ d ∈ evicted, d ∉ (cs.put c).2.2.listOf c.provider := by
    have hnodup := hperm.nodup_iff.mpr (List.nodup_cons.mpr ⟨hnew, hF.nodup⟩)
    exact fun d hd hd' => List.disjoint_of_nodup_append hnodup hd hd'
  have hown : ∀ d, d = c ∨ d ∈ cs.listOf c.provider → d.provider = c.provider ∧ d ∈ S := by
    rintro d (rfl | hd)
    · exact ⟨rfl, hc⟩
    · exact h.own _ d hd
  have hother : ∀ p, p ≠ c.provider → (cs.put c).2.2.listOf p = cs.listOf p := fun p hp => by
    rw [hlist, if_neg hp]
  refine ⟨fun hash d => ?_, fun p d hd => ?_, fun p => ?_⟩
  · rw [hindex]
    constructor
    · intro hget
      split_ifs at hget with hgone hhash
      · obtain rfl := Option.some.inj hget
        refine ⟨hhash.symm, ((hsub c).mpr (.inl rfl)).resolve_left fun hc' => hgone ?_⟩
        exact List.mem_map.mpr ⟨c, hc', hhash.symm⟩
      · obtain ⟨hd, hdl⟩ := (h.indexed _ _).mp hget
        refine ⟨hd, ?_⟩
        by_cases hp : d.provider = c.provider
        · rw [hp] at hdl ⊢
          refine ((hsub d).mpr (.inr hdl)).resolve_left fun hd' => hgone ?_
          exact List.mem_map.mpr ⟨d, hd', hd⟩
        · rwa [hother _ hp]
    · rintro ⟨rfl, hd⟩
      have hdS : d ∈ S := by
        by_cases hp : d.provider = c.provider
        · rw [hp] at hd
          exact (hown d ((hsub d).mp (.inr hd))).2
        · rw [hother _ hp] at hd
          exact (h.own _ d hd).2
      have hgone : d.hash ∉ evicted.map Certificate.hash := by
        intro hmem
        obtain ⟨v, hv, hhash⟩ := List.mem_map.mp hmem
        obtain ⟨hvp, hvS⟩ := hown v ((hsub v).mp (.inl hv))
        obtain rfl := hinj hvS hdS hhash
        rw [hvp] at hd
        exact hdisjoint v hv hd
      rw [if_neg hgone]
      split_ifs with hhash
      · rw [hinj hdS hc hhash]
      · refine (h.indexed _ _).mpr ⟨rfl, ?_⟩
        by_cases hp : d.provider = c.provider
        · rw [hp] at hd ⊢
          exact ((hsub d).mp (.inr hd)).resolve_left fun heq => hhash (by rw [heq])
        · rwa [hother _ hp] at hd
  · by_cases hp : p = c.provider
    · rw [hp] at hd ⊢
      exact hown d ((hsub d).mp (.inr hd))
    · rw [hother p hp] at hd
      exact h.own p d hd
  · by_cases hp : p = c.provider
    · rw [hlist, if_pos hp]
      exact ⟨_, hF.put retention_pos c⟩
    · rw [hother p hp]
      exact h.kept p

theorem holds_new (S : Set Certificate) : CertSet.new.Holds S where
  indexed := fun h c => by simp [CertSet.new, CertSet.listOf]
  own := fun p c hc => absurd hc List.not_mem_nil
  kept := fun p => ⟨∅, kept_nil _ _⟩

/-- **What is kept of a provider is what a bounded list keeps of its certificates.** -/
theorem holds_fed (hinj : Set.InjOn Certificate.hash S) {certs : List Certificate}
    (hS : ∀ c ∈ certs, c ∈ S) :
    (CertSet.fed certs).Holds S ∧ ∀ p, (CertSet.fed certs).listOf p =
      feed Certificate.issued certRetentionPerProvider [] (certs.filter (·.provider = p)) := by
  induction certs using List.reverseRecOn with
  | nil => exact ⟨holds_new S, fun p => rfl⟩
  | append_singleton certs c ih =>
    obtain ⟨hholds, hlist⟩ := ih fun d hd => hS d (List.mem_append_left _ hd)
    have hc : c ∈ S := hS c (by simp)
    have hfed : CertSet.fed (certs ++ [c]) = ((CertSet.fed certs).put c).2.2 := by
      rw [CertSet.fed, List.foldl_append]
      rfl
    rw [hfed]
    refine ⟨hholds.put hinj hc, fun p => ?_⟩
    rw [hholds.listOf_put hinj hc, List.filter_append, feed_append, ← hlist p]
    by_cases hp : p = c.provider
    · rw [if_pos hp, hp, List.filter_cons_of_pos (by simp)]
      rfl
    · rw [if_neg hp, List.filter_cons_of_neg (by simpa using Ne.symm hp)]
      rfl

end Holds

/-! ## Orders of arrival -/

/-- The certificates of a provider. -/
def certsOf (S : Finset Certificate) (p : Str) : Finset Certificate :=
  S.filter (·.provider = p)

/-- **The order in which the certificates arrive makes no difference.** -/
structure OrderIndependent (S : Finset Certificate) : Prop where
  count : ∀ certs, certs.toFinset = S → ∀ p,
    ((CertSet.fed certs).listOf p).toFinset.card = min certRetentionPerProvider (certsOf S p).card
  subset : ∀ certs, certs.toFinset = S → ∀ p,
    ((CertSet.fed certs).listOf p).toFinset ⊆ certsOf S p
  latest : ∀ certs, certs.toFinset = S → ∀ p, ∀ c ∈ certsOf S p,
    c ∉ (CertSet.fed certs).listOf p → ∀ d ∈ (CertSet.fed certs).listOf p, c.issued ≤ d.issued
  indexed : ∀ certs, certs.toFinset = S → ∀ hash c,
    (CertSet.fed certs).get hash = some c ↔
      c.hash = hash ∧ c ∈ (CertSet.fed certs).listOf c.provider
  retained : ∀ certs certs', certs.toFinset = S → certs'.toFinset = S → ∀ p,
    ((CertSet.fed certs).listOf p).toFinset = ((CertSet.fed certs').listOf p).toFinset
  current : ∀ certs certs', certs.toFinset = S → certs'.toFinset = S → ∀ p,
    (CertSet.fed certs).current p = (CertSet.fed certs').current p

section Orders

open Retention

variable {S : Finset Certificate} {certs : List Certificate}

theorem toFinset_filter_provider (h : certs.toFinset = S) (p : Str) :
    (certs.filter (·.provider = p)).toFinset = certsOf S p := by
  rw [List.toFinset_filter, h]
  simp [certsOf]

theorem holds_of_toFinset (hinj : Set.InjOn Certificate.hash (S : Set Certificate))
    (h : certs.toFinset = S) :
    (CertSet.fed certs).Holds S ∧ ∀ p, (CertSet.fed certs).listOf p =
      feed Certificate.issued certRetentionPerProvider [] (certs.filter (·.provider = p)) :=
  holds_fed hinj fun c hc => by rwa [← h, Finset.mem_coe, List.mem_toFinset]

theorem kept_fed (hinj : Set.InjOn Certificate.hash (S : Set Certificate))
    (h : certs.toFinset = S) (p : Str) :
    Kept Certificate.issued certRetentionPerProvider (certsOf S p)
      ((CertSet.fed certs).listOf p) := by
  rw [(holds_of_toFinset hinj h).2 p, ← toFinset_filter_provider h p]
  exact kept_feed _ retention_pos _

theorem exists_toFinset (S : Finset Certificate) {p : Str} (h : certs.toFinset = certsOf S p) :
    ∃ all : List Certificate, all.toFinset = S ∧ all.filter (·.provider = p) = certs := by
  have hown : ∀ c, c ∈ certs ↔ c ∈ S ∧ c.provider = p := fun c => by
    rw [← List.mem_toFinset, h, certsOf, Finset.mem_filter]
  refine ⟨certs ++ (S.filter (·.provider ≠ p)).toList, ?_, ?_⟩
  · ext c
    simp only [List.mem_toFinset, List.mem_append, hown, Finset.mem_toList, Finset.mem_filter]
    tauto
  · have hleft : certs.filter (·.provider = p) = certs :=
      List.filter_eq_self.mpr fun c hc => by simpa using ((hown c).mp hc).2
    have hright : (S.filter (·.provider ≠ p)).toList.filter (·.provider = p) = [] := by
      refine List.filter_eq_nil_iff.mpr fun c hc => ?_
      simpa using (Finset.mem_filter.mp (Finset.mem_toList.mp hc)).2
    rw [List.filter_append, hleft, hright, List.append_nil]

/-- **Certificates with hashes of their own are retained in the same way whatever the order they
arrive in exactly when, for every provider, the latest is alone at its issue time and no issue time
is on both sides of the bound.** -/
theorem orderIndependent_iff (hinj : Set.InjOn Certificate.hash (S : Set Certificate)) :
    OrderIndependent S ↔
      ∀ p, Separated Certificate.issued certRetentionPerProvider (certsOf S p) := by
  constructor
  · intro h p
    refine (feed_eq_iff _ retention_pos _).mp fun xs ys hxs hys => ?_
    obtain ⟨xs', hxs', rfl⟩ := exists_toFinset S hxs
    obtain ⟨ys', hys', rfl⟩ := exists_toFinset S hys
    rw [← (holds_of_toFinset hinj hxs').2 p, ← (holds_of_toFinset hinj hys').2 p]
    exact ⟨h.retained xs' ys' hxs' hys' p, h.current xs' ys' hxs' hys' p⟩
  · intro hsep
    have hsame : ∀ xs ys : List Certificate, xs.toFinset = S → ys.toFinset = S → ∀ p,
        ((CertSet.fed xs).listOf p).toFinset = ((CertSet.fed ys).listOf p).toFinset ∧
        (CertSet.fed xs).current p = (CertSet.fed ys).current p := by
      intro xs ys hxs hys p
      rw [CertSet.current, CertSet.current, (holds_of_toFinset hinj hxs).2 p,
        (holds_of_toFinset hinj hys).2 p]
      exact (feed_eq_iff _ retention_pos _).mpr (hsep p) _ _ (toFinset_filter_provider hxs p)
        (toFinset_filter_provider hys p)
    refine ⟨fun certs hS p => ?_, fun certs hS p => (kept_fed hinj hS p).subset,
      fun certs hS p => (kept_fed hinj hS p).latest,
      fun certs hS => (holds_of_toFinset hinj hS).1.indexed,
      fun xs ys hxs hys p => (hsame xs ys hxs hys p).1,
      fun xs ys hxs hys p => (hsame xs ys hxs hys p).2⟩
    have hkept := kept_fed hinj hS p
    rw [hkept.card]
    rcases Nat.le_total (certsOf S p).card certRetentionPerProvider with hfew | hmany
    · have hall : ((CertSet.fed certs).listOf p).toFinset = certsOf S p :=
        hkept.subset.antisymm fun c hc => List.mem_toFinset.mpr (hkept.mem_of_card_le hfew hc)
      rw [min_eq_right hfew, ← hkept.card, hall]
    · rw [min_eq_left hmany, hkept.length_eq hmany]

end Orders

/-! ## Certificates of one issue time -/

namespace Sample

/-- A certificate of a number and an issue time. -/
def certificate (n : UInt64) (issuedAt : Int64) : Certificate where
  provider := str "provider"
  issuedAt := issuedAt
  hash := be64 n

/-- One certificate more than a provider may have, all of one issue time. -/
def simultaneous : Finset Certificate :=
  (Finset.range 257).image fun n => certificate n.toUInt64 0

end Sample

open Sample in
theorem orderIndependent_pair :
    Set.InjOn Certificate.hash
        (({certificate 0 0, certificate 1 5} : Finset Certificate) : Set Certificate) ∧
      OrderIndependent {certificate 0 0, certificate 1 5} := by
  have hinj : Set.InjOn Certificate.hash
      (({certificate 0 0, certificate 1 5} : Finset Certificate) :
        Set Certificate) := by
    intro a ha b hb
    simp only [Finset.coe_insert, Finset.coe_singleton, Set.mem_insert_iff,
      Set.mem_singleton_iff] at ha hb
    rcases ha with rfl | rfl <;> rcases hb with rfl | rfl <;> decide
  refine ⟨hinj, (orderIndependent_iff hinj).mpr fun p => Retention.separated_of_injOn ?_⟩
  intro a ha b hb
  simp only [certsOf, Finset.coe_filter, Finset.mem_insert, Finset.mem_singleton,
    Set.mem_ofPred_eq] at ha hb
  rcases ha.1 with rfl | rfl <;> rcases hb.1 with rfl | rfl <;> decide

theorem certificate_inj {m n : UInt64} {t u : Int64}
    (h : Sample.certificate m t = Sample.certificate n u) : m = n :=
  be64_inj (congrArg Certificate.hash h)

theorem injOn_simultaneous :
    Set.InjOn Certificate.hash (Sample.simultaneous : Set Certificate) := by
  intro a ha b hb hab
  obtain ⟨m, -, rfl⟩ := Finset.mem_image.mp ha
  obtain ⟨n, -, rfl⟩ := Finset.mem_image.mp hb
  rw [be64_inj hab]

theorem card_simultaneous : Sample.simultaneous.card = 257 := by
  rw [Sample.simultaneous, Finset.card_image_of_injOn, Finset.card_range]
  intro m hm n hn hmn
  have := congrArg UInt64.toNat (certificate_inj hmn)
  simp only [Finset.coe_range, Set.mem_Iio] at hm hn
  simp only [Nat.toUInt64_eq, UInt64.toNat_ofNat'] at this
  omega

open Sample in
/-- Two certificates of one issue time: the one that arrives last is current.  With one more than
the bound, the first may be found or not. -/
theorem retention_order_matters :
    ((CertSet.fed [certificate 0 0, certificate 1 0]).current (str "provider") =
        some (certificate 1 0) ∧
      (CertSet.fed [certificate 1 0, certificate 0 0]).current (str "provider") =
        some (certificate 0 0)) ∧
    ∃ certs certs' : List Certificate,
      certs.toFinset = simultaneous ∧ certs'.toFinset = simultaneous ∧
      (CertSet.fed certs).get (be64 0) = some (certificate 0 0) ∧
      (CertSet.fed certs').get (be64 0) = none := by
  refine ⟨⟨by decide +kernel, by decide +kernel⟩, ?_⟩
  have hall : ∀ c ∈ simultaneous, c.provider = str "provider" ∧ c.issued = 0 := by
    intro c hc
    obtain ⟨n, -, rfl⟩ := Finset.mem_image.mp hc
    exact ⟨rfl, rfl⟩
  have hown : certsOf simultaneous (str "provider") = simultaneous :=
    Finset.filter_true_of_mem fun c hc => (hall c hc).1
  have hfirst : certificate 0 0 ∈ simultaneous :=
    Finset.mem_image.mpr ⟨0, Finset.mem_range.mpr (by decide), rfl⟩
  have hlater : Retention.later Certificate.issued simultaneous (certificate 0 0) <
      certRetentionPerProvider := by
    rw [Retention.later, Finset.filter_false_of_mem fun c hc => ?_]
    · exact retention_pos
    · rw [(hall c hc).2]
      exact lt_irrefl 0
  have hmany : certRetentionPerProvider <
      Retention.atLeast Certificate.issued simultaneous (certificate 0 0) := by
    rw [Retention.atLeast, Finset.filter_true_of_mem fun c hc => ?_, card_simultaneous]
    · decide
    · rw [(hall c hc).2]
      exact le_refl 0
  obtain ⟨xs, ys, hxs, hys, hin, hout⟩ :=
    Retention.exists_feed_mem_notMem retention_pos hfirst hlater hmany
  rw [← hown] at hxs hys
  obtain ⟨xs, hxs', rfl⟩ := exists_toFinset simultaneous hxs
  obtain ⟨ys, hys', rfl⟩ := exists_toFinset simultaneous hys
  obtain ⟨hx, hxlist⟩ := holds_of_toFinset injOn_simultaneous hxs'
  obtain ⟨hy, hylist⟩ := holds_of_toFinset injOn_simultaneous hys'
  rw [← hxlist] at hin
  rw [← hylist] at hout
  refine ⟨xs, ys, hxs', hys', (hx.indexed _ _).mpr ⟨rfl, hin⟩, ?_⟩
  refine Option.eq_none_iff_forall_not_mem.mpr fun d hd => hout ?_
  obtain ⟨hhash, hmem⟩ := (hy.indexed _ _).mp hd
  obtain ⟨hp, hdS⟩ := hy.own _ d hmem
  rw [(hall d hdS).1] at hmem
  rw [← injOn_simultaneous hdS hfirst hhash]
  exact hmem

end Xe
