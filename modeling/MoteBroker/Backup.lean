import MoteBroker.Answerable
import MoteBroker.Blocks

/-!
Backups: what a snapshot says, published as a block, to this broker or to another one.
-/

namespace MoteBroker.Backup

open NestedDict Wildcard JsonText MoteBroker.Topics MoteBroker.RecursiveDefaultDict
open MoteBroker.TreeItems MoteBroker.FilterTree MoteBroker.Rows MoteBroker.Messages
open MoteBroker.Retain MoteBroker.AllOrNothing MoteBroker.Snapshot MoteBroker.Spread
open MoteBroker.Blocks

/-! ### What a snapshot is -/

section
variable {F : List Str} {t : Rdd Payload} {d : Rdd Payload}

/-- No topic that a filter has anything for goes through the leaf key. -/
lemma leafKey_notMem {topic : List Str} (hE : F.getLast? ≠ some everythingCard) (hs : Shape t)
    (h : leafFor F t topic ≠ none) : leafKey ∉ topic := by
  have hbranch : branch t topic ≠ none := by
    intro hnone
    have hvalue : valueAt t topic = none := not_not.mp fun h => branch_ne_none hs h hnone
    rw [leafFor, if_neg hE, hvalue, hnone] at h
    split_ifs at h <;> exact h rfl
  clear h
  induction topic generalizing t with
  | nil => exact List.not_mem_nil
  | cons n topic ih =>
    obtain ⟨b, hget, hb⟩ := branch_cons_ne_none.mp hbranch
    have hn := hs.get hget
    exact fun hmem => (List.mem_cons.mp hmem).elim (fun h => hn.1 h.symm)
      (ih (Dict.All.get hs hget).2 hb)

/-- The dictionary that a filter collects: a payload at the captured nodes of each topic that it has
something for, and nothing else. -/
structure Collected (F : List Str) (t d : Rdd Payload) : Prop where
  distinct : d.Distinct
  pruned : d.Pruned
  value : ∀ c, d.leafAt c = if c.length = F.count manyCard then leafFor F t (fill manyCard F c)
    else none
  keys : ∀ c a, d.leafAt c = some a → ∀ k ∈ c, k ≠ leafKey

lemma collected (hF : Path F) (hE : everythingCard ∉ F) (ht : WellFormed t)
    (h : filterTreeWithTopic F (.node t) = .ok (.item (.node d))) : Collected F t d := by
  have hdrop : everythingCard ∉ F.dropLast := fun h => hE (List.dropLast_subset _ h)
  have hlast : F.getLast? ≠ some everythingCard := fun h => hE (List.mem_of_getLast? h)
  obtain ⟨x, hx, hyields⟩ := filterTreeWithTopic_yields hF hdrop ht.shape ht.distinct
  obtain rfl := Except.ok.inj (h.symm.trans hx)
  have hvalue : ∀ c, d.leafAt c =
      if c.length = F.count manyCard then leafFor F t (fill manyCard F c) else none := by
    intro c
    have hc := hyields.value c
    rw [valueFor, if_neg hE, Item.leafAt_node, substitute_eq hE] at hc
    rw [hc]
    split_ifs <;> rfl
  refine ⟨hyields.distinct _ rfl, filterTreeWithTopic_pruned hF hE ht.shape ht.distinct h, hvalue,
    fun c a hc k hk => ?_⟩
  rw [hvalue] at hc
  split_ifs at hc with hlength
  rintro rfl
  exact leafKey_notMem hlast ht.shape (by rw [hc]; exact Option.some_ne_none a)
    (mem_fill hlength hk)

/-- As a payload tree it has the depth of the filter, and can be spread. -/
lemma Collected.uniform (h : Collected F t d) (hmany : manyCard ∈ F) :
    (Item.node (d.map payloadScalar)).Uniform (F.count manyCard) := by
  have hpos : F.count manyCard ≠ 0 := Nat.pos_iff_ne_zero.mp (List.count_pos_iff.mpr hmany)
  have hdepth : (Item.node d).Uniform (F.count manyCard) := by
    refine Item.uniform_of_leafAt h.pruned (fun _ => hpos) fun p a hp => ?_
    rw [Item.leafAt_node, h.value] at hp
    split_ifs at hp with hlength
    exact hlength
  exact hdepth.map payloadScalar

lemma Collected.dataKeys (h : Collected F t d) :
    DataKeys (· ≠ leafKey) (.node (d.map payloadScalar)) := by
  refine Dict.all_of_paths ((Dict.distinct_map _ _).mpr h.distinct) (Dict.pruned_map _ h.pruned)
    fun p a hp => ?_
  rw [Dict.leafAt_map] at hp
  obtain ⟨b, hb, -⟩ := Option.map_eq_some_iff.mp hp
  exact h.keys p b hb

lemma Collected.popFlags (h : Collected F t d) :
    popFlags (.node (d.map payloadScalar)) = (none, .node (d.map payloadScalar)) := by
  have hno : leafKey ∉ (d.map payloadScalar).keys := by
    intro hmem
    obtain ⟨v, hv⟩ := Option.ne_none_iff_exists'.mp ((Dict.mem_keys_iff _ _).mp hmem)
    exact (Dict.All.get h.dataKeys hv).1 rfl
  rw [Messages.popFlags, Dict.pop_of_notMem hno, (Dict.get_eq_none _ _).mpr hno]

/-- It says null exactly where the filter ends in a node that is there without a payload. -/
lemma Collected.nullFree_iff (h : Collected F t d) (hE : everythingCard ∉ F)
    (hmany : manyCard ∈ F) : NullFree F t ↔ ∀ c, d.leafAt c ≠ some none := by
  have hlast : F.getLast? ≠ some everythingCard := fun h => hE (List.mem_of_getLast? h)
  have hwild : ¬F.all isNodeStatic := fun hall =>
    absurd (List.all_eq_true.mp hall _ hmany) (by decide)
  constructor
  · intro hfree c hc
    rw [h.value] at hc
    split_ifs at hc with hlength
    have hsub : substitute F c = some (fill manyCard F c) := by
      rw [substitute_eq hE, if_pos hlength]
    by_cases hstatic : F.getLast?.any isNodeStatic
    · rw [leafFor_static hstatic] at hc
      obtain ⟨b, hb, hjoin⟩ := Option.map_eq_some_iff.mp hc
      exact (hfree hwild c _ hsub).2 hstatic (by rw [hb]; exact Option.some_ne_none b) hjoin
    · have hM : F.getLast? = some manyCard := by
        obtain ⟨last, hsome⟩ := Option.isSome_iff_exists.mp
          (List.getLast?_isSome.mpr (List.ne_nil_of_mem hmany))
        rw [hsome, Option.any_some] at hstatic
        rw [hsome] at hlast ⊢
        by_contra hne
        refine hstatic ?_
        simpa [isNodeStatic] using ⟨mt (congrArg some) hne, mt (congrArg some) hlast⟩
      rw [leafFor, if_neg hlast, if_pos hM] at hc
      exact absurd (Option.filter_eq_some_iff.mp hc).2 (by decide)
  · intro hno _ c topic hsub
    rw [substitute_eq hE] at hsub
    split_ifs at hsub with hlength
    cases hsub
    refine ⟨fun h => absurd h hlast, fun hstatic hb hjoin => hno c ?_⟩
    obtain ⟨b, hb⟩ := Option.ne_none_iff_exists'.mp hb
    rw [h.value, if_pos hlength, leafFor_static hstatic, hb, hjoin]
    rfl

lemma strings_iff (hd : d.Distinct) :
    Strings (.node (d.map payloadScalar)) ↔ ∀ c, d.leafAt c ≠ some none := by
  have hmem : ∀ leaf : List Str × Scalar, leaf ∈ (d.map payloadScalar).leaves ↔
      ∃ a, d.leafAt leaf.1 = some a ∧ payloadScalar a = leaf.2 := fun leaf => by
    rw [Dict.mem_leaves_iff ((Dict.distinct_map _ _).mpr hd), Dict.leafAt_map,
      Option.map_eq_some_iff]
  constructor
  · intro h c hc
    obtain ⟨s, hs⟩ := h (c, .null) ((hmem _).mpr ⟨none, hc, rfl⟩)
    cases hs
  · intro h leaf hleaf
    obtain ⟨a, ha, hscalar⟩ := (hmem leaf).mp hleaf
    cases a with
    | none => exact absurd ha (h _)
    | some b => exact ⟨_, hscalar.symm⟩

end

/-! ### Publishing it -/

section
variable {tm tm' : TreeManager} {s : Str} {qos : ℕ} {snapshot : OutgoingMessage} {bytes : Bytes}

/-- What a client has that asks for the retained messages with a `+`. -/
lemma collected_of_getMessage (htree : WellFormed tm.tree) (hmany : manyCard ∈ split s)
    (hE : everythingCard ∉ split s) (hget : tm.getMessage (Topic.fromStr s) qos = .ok snapshot)
    (hdata : snapshot.data = .payload (some bytes)) :
    ∃ d, Collected (split s) tm.tree d ∧ readJson bytes = some (.node (d.map payloadScalar)) ∧
      ∀ c a, d.leafAt c = some a → Decodes a := by
  obtain ⟨x, hx, hmessage⟩ := ok_of_bind hget
  have hwild : (split s).all isNodeStatic = false := by
    rw [Bool.eq_false_iff]
    exact fun hall => absurd (List.all_eq_true.mp hall _ hmany) (by decide)
  have hdrop : everythingCard ∉ (split s).dropLast := fun h => hE (List.dropLast_subset _ h)
  obtain ⟨y, hy, hyields⟩ :=
    filterTreeWithTopic_yields (path_split s) hdrop htree.shape htree.distinct
  obtain rfl := Except.ok.inj (hx.symm.trans hy)
  match x, hx, hyields, hmessage with
  | .emptyStr, _, _, hmessage =>
    cases hmessage
    cases hdata
  | .item (.leaf a), _, hyields, _ => exact absurd rfl (hyields.noLeaf hwild a)
  | .item (.node d), hx, _, hmessage =>
    have hcollected := collected (path_split s) hE htree hx
    obtain ⟨b, hb, hsnapshot⟩ := ok_of_map hmessage
    have htext := (stringify_ok_iff hcollected.distinct).mp ⟨b, hb⟩
    obtain ⟨b', hb', hread⟩ := readJson_stringify hcollected.distinct htext
    obtain rfl := Except.ok.inj (hb.symm.trans hb')
    rw [← hsnapshot] at hdata
    cases hdata
    exact ⟨d, hcollected, hread, htext⟩

/-- The topics that the filter matches are those of the backup where it has them, and all others
keep what they have. -/
def Restored (F : List Str) (tree₁ tree₂ tree : Rdd Payload) : Prop :=
  ∀ topic, payloadAt tree topic =
    if Matches manyCard F topic then (payloadAt tree₁ topic).or (payloadAt tree₂ topic)
    else payloadAt tree₂ topic

/-- The rows of a collected dictionary, retained. -/
lemma restored_of_spread {F : List Str} {t₁ t₂ d : Rdd Payload} {rows : List Row}
    (h : Collected F t₁ d) (hF : Path F) (hE : everythingCard ∉ F) (hmany : manyCard ∈ F)
    (ht₁ : Shape t₁) (hfull : ∀ p b, valueAt t₁ p = some (some b) → b ≠ [])
    (hnull : NullFree F t₁) (htext : ∀ c a, d.leafAt c = some a → Decodes a) (ht₂ : Shape t₂)
    (hspread : Spreads qos none F (.node (d.map payloadScalar)) [] (.node t₂) rows)
    (hpaths : ∀ row ∈ rows, Path row.topic) : Restored F t₁ t₂ (setLeaves t₂ rows).1 := by
  have huniform := h.uniform hmany
  have hd : (Item.node (d.map payloadScalar)).Distinct := (Dict.distinct_map _ _).mpr h.distinct
  have hwild : ¬F.all isNodeStatic := fun hall =>
    absurd (List.all_eq_true.mp hall _ hmany) (by decide)
  have hleafAt : ∀ c, (Item.node (d.map payloadScalar)).leafAt c =
      (d.leafAt c).map payloadScalar := fun c => Dict.leafAt_map _ _ _
  have hmem := mem_spread_iff hspread
  have hrows : ∀ row ∈ rows, ∃ c a, c.length = F.count manyCard ∧ d.leafAt c = some a ∧
      row.topic = fill manyCard F c := by
    intro row hrow
    rcases (hmem row).mp hrow with ⟨leaf, hleaf, rfl⟩ | ⟨hflag, -⟩
    · have hget := (Item.mem_leaves_iff hd leaf.1 leaf.2).mp hleaf
      rw [hleafAt] at hget
      obtain ⟨a, ha, -⟩ := Option.map_eq_some_iff.mp hget
      exact ⟨leaf.1, a, length_of_mem_leaves huniform hd hleaf, ha, rfl⟩
    · cases hflag
  intro topic
  split_ifs with hmatches
  · obtain ⟨c, hlength, rfl⟩ : ∃ c : List Str, c.length = F.count manyCard ∧
        topic = fill manyCard F c :=
      ⟨_, hmatches.length_captures, hmatches.fill_captures.symm⟩
    have hsub : substitute F c = some (fill manyCard F c) := by
      rw [substitute_eq hE, if_pos hlength]
    have hfor := (leafFor_eq_iff ht₁ hfull hF.1 _).mpr (hnull hwild c _ hsub)
    have hvalue := h.value c
    rw [if_pos hlength, hfor] at hvalue
    rw [payloadAt, payloadAt, payloadAt]
    cases hjoin : (valueAt t₁ (fill manyCard F c)).join with
    | none =>
      rw [hjoin, Option.map_none] at hvalue
      rw [Option.none_or, valueAt_setLeaves_of_ne ht₂ hpaths fun row hrow htopic => ?_]
      obtain ⟨c', a, hlength', ha, hrow⟩ := hrows row hrow
      obtain rfl := fill_injective hlength' hlength (hrow.symm.trans htopic)
      rw [hvalue] at ha
      cases ha
    | some b =>
      rw [hjoin, Option.map_some] at hvalue
      have hget := hleafAt c
      rw [hvalue, Option.map_some] at hget
      have hrow : ∃ row ∈ rows, row.topic = fill manyCard F c :=
        ⟨_, (hmem _).mpr (.inl ⟨_, (Item.mem_leaves_iff hd _ _).mpr hget, rfl⟩), rfl⟩
      rw [valueAt_setLeaves ht₂ hpaths fun row hrow htopic =>
        data_of_leaf huniform hd hspread hget hrow htopic, if_pos hrow,
        scalarPayload_payloadScalar (htext c _ hvalue)]
      rfl
  · rw [payloadAt, payloadAt, valueAt_setLeaves_of_ne ht₂ hpaths fun row hrow htopic => hmatches ?_]
    obtain ⟨c, a, hlength, -, hrow⟩ := hrows row hrow
    rw [← htopic, hrow]
    exact matches_fill hlength

/-- **A snapshot is a backup.** What a client is sent for a filter with `+` it can publish as a
block on the same topic, to a broker with any other messages: it is accepted exactly if there was
no node without a payload at the filter's static end, and then the topics that the filter matches
are those of the snapshot again, and the others stay as they are. -/
theorem backup_restores (htree : WellFormed tm.tree) (htree' : WellFormed tm'.tree)
    (hfull : ∀ p b, valueAt tm.tree p = some (some b) → b ≠ []) (hmany : manyCard ∈ split s)
    (hE : everythingCard ∉ split s) (hget : tm.getMessage (Topic.fromStr s) qos = .ok snapshot)
    (hdata : snapshot.data = .payload (some bytes)) :
    ∃ message, IncomingMessage.fromRawData (s ++ [topicSep]) (some bytes) qos true = .ok message ∧
      (NullFree (split s) tm.tree → ∃ tm'' rows, tm'.processMessage message = (tm'', .ok rows) ∧
        Restored (split s) tm.tree tm'.tree tm''.tree) ∧
      (¬NullFree (split s) tm.tree → ∃ e, tm'.processMessage message = (tm', .error e)) := by
  obtain ⟨d, hcollected, hjson, htext⟩ := collected_of_getMessage htree hmany hE hget hdata
  have hpath := path_split s
  have hd : (Item.node (d.map payloadScalar)).Distinct :=
    (Dict.distinct_map _ _).mpr hcollected.distinct
  have hraw : IncomingMessage.fromRawData (s ++ [topicSep]) (some bytes) qos true =
      .ok ⟨Topic.fromStr s, qos, true, true, some bytes⟩ := by
    simp [IncomingMessage.fromRawData]
  have hrows : messageRows ⟨Topic.fromStr s, qos, true, true, some bytes⟩ tm'.tree =
      flattenMessageIntoRows qos none (split s) (.node (d.map payloadScalar)) []
        (.node tm'.tree) := by
    rw [messageRows, if_pos rfl, flattenIntoRows_of_json rfl hjson, hcollected.popFlags]
    rfl
  refine ⟨_, hraw, fun hnull => ?_, fun hnull => ?_⟩
  · have hstrings := (strings_iff hcollected.distinct).mpr
      ((hcollected.nullFree_iff hE hmany).mp hnull)
    obtain ⟨rows, hok, hspread⟩ := @flattenMessageIntoRows_spreads qos none _ hpath.1 hE _
      (hcollected.uniform hmany) hd hstrings (.node tm'.tree) (wellFormedItem_node htree')
      (follows_of_keys hpath.2 hcollected.dataKeys htree'.shape) []
    have hpaths := paths_of_flatten hpath hcollected.dataKeys hok
    exact ⟨_, rows, processMessage_ok htree'.shape (hrows.trans hok) hpaths,
      restored_of_spread hcollected hpath hE hmany htree.shape hfull hnull htext htree'.shape
        hspread hpaths⟩
  · cases hflat : flattenMessageIntoRows qos none (split s) (.node (d.map payloadScalar)) []
        (.node tm'.tree) with
    | error e => exact ⟨e, by rw [TreeManager.processMessage, hrows, hflat]⟩
    | ok rows =>
      refine absurd ((hcollected.nullFree_iff hE hmany).mpr ?_) hnull
      exact (strings_iff hcollected.distinct).mp (follows_of_ok hd hflat).1

end

/-- The hall of `Snapshot.lights`, taken to an empty broker. -/
theorem backup_restores_hall :
    ∃ message, IncomingMessage.fromRawData "hall/+/".toList
        (some (Utf8.encode "\x7b\"light\": \"1\"\x7d".toList)) 0 true = .ok message ∧
      (NullFree (split "hall/+".toList) lights → ∃ tm'' rows,
        (⟨.nil, []⟩ : TreeManager).processMessage message = (tm'', .ok rows) ∧
        Restored (split "hall/+".toList) lights .nil tm''.tree) ∧
      (¬NullFree (split "hall/+".toList) lights → ∃ e,
        (⟨.nil, []⟩ : TreeManager).processMessage message = (⟨.nil, []⟩, .error e)) := by
  have hd : lights.Distinct := by decide
  have hfull : ∀ p b, valueAt lights p = some (some b) → b ≠ [] := fun p b hb => by
    have hm := (Dict.mem_leaves_iff hd _ _).mpr hb
    rintro rfl
    simp [lights, Dict.leaves] at hm
  exact @backup_restores ⟨lights, []⟩ ⟨.nil, []⟩ "hall/+".toList 0
    ⟨"hall/+".toList, 0, .payload (some (Utf8.encode "\x7b\"light\": \"1\"\x7d".toList))⟩ _
    ⟨by decide, hd⟩ ⟨shape_nil, trivial⟩ hfull (by decide) (by decide) (by decide +kernel) rfl

end MoteBroker.Backup
