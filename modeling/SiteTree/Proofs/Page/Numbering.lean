import SiteTree.Proofs.Page.Arena
import SiteTree.Proofs.Page.ScopeCover
import SiteTree.Proofs.ScopeId

/-!
# The numbers of components

Identifiers can be numbers, given out in the order in which the components of a site are met: page by
page, each page before its imports, and imports depth first, not again below a key that was gone
below before. A key that is met again keeps its number, whether it was met as a page or as an import,
so no number is left out and none is given twice.

* `Mount.eraseDups_encounters` — identifiers are given out in the order in which keys are met first.
* `Registry.Numbers.assignAll` — keys are numbered in the order in which they come up first.
* `Layout.numbers_in_order_met` — the class of a key tells when it was met.
-/

namespace SiteTree

/-! ### What a walk meets -/

/-- A mount that a walk comes to, as a page or as an import. -/
inductive Stop where
  | page (mount : Mount)
  | imported (mount : Mount)

namespace Stop

def mount : Stop → Mount
  | page mount => mount
  | imported mount => mount

end Stop

namespace Mount

mutual

/-- The number of mounts in a tree, those of imports among them. -/
def weight : Mount → Nat
  | mk _ _ imports children => 1 + weightAll imports + weightAll children

def weightAll : List Mount → Nat
  | [] => 0
  | mount :: mounts => mount.weight + weightAll mounts

end

theorem weightAll_append (first second : List Mount) :
    weightAll (first ++ second) = weightAll first + weightAll second := by
  induction first with
  | nil => simp [weightAll]
  | cons mount first ih => rw [List.cons_append, weightAll, weightAll, ih, Nat.add_assoc]

theorem weight_eq (mount : Mount) :
    mount.weight = 1 + weightAll mount.imports + weightAll mount.children := by
  cases mount
  rfl

theorem map_mount_imported (mounts : List Mount) :
    (mounts.map Stop.imported).map Stop.mount = mounts := by
  rw [List.map_map]
  exact List.map_id mounts

theorem map_mount_page (mounts : List Mount) : (mounts.map Stop.page).map Stop.mount = mounts := by
  rw [List.map_map]
  exact List.map_id mounts

/-- The keys that a walk meets, with repetitions: at a page its own first, then those of its imports,
depth first, and then those of the pages below it. Below an import whose key was gone below before,
nothing is looked at again. -/
def encounters : (stops : List Stop) → (descended : List Key) → List Key
  | [], _ => []
  | .page mount :: stops, descended =>
    mount.key :: encounters
      (mount.imports.map .imported ++ (mount.children.map .page ++ stops)) descended
  | .imported mount :: stops, descended =>
    mount.key ::
      if mount.key ∈ descended then encounters stops descended
      else encounters (mount.imports.map .imported ++ stops) (mount.key :: descended)
termination_by stops => weightAll (stops.map Stop.mount)
decreasing_by
  all_goals
    simp only [List.map_cons, List.map_append, map_mount_imported, map_mount_page, weightAll,
      weightAll_append, Stop.mount, weight_eq mount]
    omega

/-- The keys of a site, in the order in which a walk meets them first. -/
def keysMet (root : Mount) : List Key :=
  (encounters [.page root] []).eraseDups

/-! ### The order of identifiers -/

/-- What was met before does not count when it is met again. -/
theorem eraseDups_append_cons {α : Type} [BEq α] [LawfulBEq α] {front rest : List α} {a : α}
    (h : a ∈ front) : (front ++ a :: rest).eraseDups = (front ++ rest).eraseDups := by
  rw [List.eraseDups_append, List.eraseDups_append]
  simp [List.removeAll, h]

variable {front descended : List Key}

/-- The imports that are gone below are those that are visited. -/
theorem eraseDups_encounters_imports (imports : List Mount) (rest : List Stop)
    (hfront : ∀ key ∈ descended, key ∈ front) :
    (front ++ encounters (imports.map .imported ++ rest) descended).eraseDups
      = (front ++ ((firstMet followAll imports descended).map key
          ++ encounters rest (keysAfter followAll imports descended))).eraseDups := by
  fun_induction firstMet followAll imports descended generalizing front with
  | case1 descended => simp
  | case2 mount imports descended hmem ih =>
    rw [keysAfter_cons_of_mem hmem, List.map_cons, List.cons_append, encounters, if_pos hmem,
      eraseDups_append_cons (hfront _ hmem)]
    exact ih hfront
  | case3 mount imports descended hmem ih =>
    rw [filter_followAll, List.map_append] at ih
    rw [keysAfter_cons_of_notMem hmem, filter_followAll, List.map_cons, List.cons_append, encounters,
      if_neg hmem, List.map_cons, List.cons_append]
    have hnext : ∀ key ∈ mount.key :: descended, key ∈ front ++ [mount.key] := by
      intro key hkey
      rcases List.mem_cons.mp hkey with rfl | hkey
      · exact List.mem_append_right _ (List.mem_singleton_self _)
      · exact List.mem_append_left _ (hfront key hkey)
    have hrest := ih hnext
    simp only [List.append_assoc, List.cons_append, List.nil_append] at hrest ⊢
    exact hrest

theorem forestPreorder_append (first second : List Mount) :
    forestPreorder (first ++ second) = forestPreorder first ++ forestPreorder second := by
  induction first with
  | nil => rfl
  | cons mount first ih => rw [List.cons_append, forestPreorder, forestPreorder, ih, List.append_assoc]

theorem forestPreorder_cons (mount : Mount) (mounts : List Mount) :
    forestPreorder (mount :: mounts) = mount :: forestPreorder (mount.children ++ mounts) := by
  cases mount with
  | mk declaration overrides imports children =>
    rw [forestPreorder, preorder, forestPreorder_append, List.cons_append, Mount.children]

/-- Identifiers are given out in the order in which keys are met first. -/
theorem eraseDups_encounters {pages : List Page} {mounts : List Mount}
    (hpages : pages.map Page.mount = forestPreorder mounts)
    (hfront : ∀ key ∈ descended, key ∈ front) :
    (front ++ encounters (mounts.map .page) descended).eraseDups
      = (front ++ scopeOrder pages descended).eraseDups := by
  induction pages generalizing mounts front descended with
  | nil =>
    cases mounts with
    | nil =>
      rw [List.map_nil, encounters]
      rfl
    | cons mount mounts =>
      rw [forestPreorder_cons] at hpages
      cases hpages
  | cons page pages ih =>
    cases mounts with
    | nil => cases hpages
    | cons mount mounts =>
      rw [forestPreorder_cons, List.map_cons] at hpages
      obtain ⟨hpage, hpages⟩ := List.cons.inj hpages
      subst hpage
      have hself : ∀ key ∈ descended, key ∈ front ++ [page.mount.key] := fun key hkey =>
        List.mem_append_left _ (hfront key hkey)
      have hafter : ∀ key ∈ keysAfter followAll page.mount.imports descended,
          key ∈ front ++ [page.mount.key]
            ++ (firstMet followAll page.mount.imports descended).map Mount.key := by
        intro key hkey
        rcases List.mem_append.mp hkey with hkey | hkey
        · exact List.mem_append_right _ (List.mem_reverse.mp hkey)
        · exact List.mem_append_left _ (hself key hkey)
      have himports := eraseDups_encounters_imports page.mount.imports
        ((page.mount.children ++ mounts).map Stop.page) hself
      have hrest := ih hpages hafter
      rw [List.map_cons, encounters, ← List.map_append, scopeOrder_cons, Page.key]
      simp only [List.append_assoc, List.cons_append, List.nil_append] at himports hrest ⊢
      exact himports.trans hrest

theorem keysMet_eq (root : Mount) (output : Path) :
    root.keysMet = (scopeOrder (PageTree.ofMount output root).pages []).eraseDups := by
  have hpages : (PageTree.ofMount output root).pages.map Page.mount = forestPreorder [root] := by
    rw [PageTree.map_mount_pages, forestPreorder, forestPreorder, List.append_nil]
  exact @eraseDups_encounters [] [] _ _ hpages nofun

end Mount

/-! ### Numbers -/

namespace Registry

/-- Keys with their numbers. -/
def numbered (keys : List Key) : List (Key × ScopeId) :=
  keys.zipIdx.map fun (key, number) => (key, ⟨toString number⟩)

theorem mem_numbered_iff {keys : List Key} {key : Key} {id : ScopeId} :
    (key, id) ∈ numbered keys ↔ ∃ number : Nat, keys[number]? = some key ∧ id = ⟨toString number⟩ := by
  simp only [numbered, List.mem_map, Prod.mk.injEq, Prod.exists, List.mk_mem_zipIdx_iff_getElem?]
  constructor
  · rintro ⟨_, number, hkey, rfl, rfl⟩
    exact ⟨number, hkey, rfl⟩
  · rintro ⟨number, hkey, rfl⟩
    exact ⟨key, number, hkey, rfl, rfl⟩

theorem map_fst_numbered (keys : List Key) : (numbered keys).map Prod.fst = keys := by
  rw [numbered, List.map_map]
  exact List.zipIdx_map_fst 0 keys

theorem numbered_concat (keys : List Key) (key : Key) :
    numbered (keys ++ [key]) = numbered keys ++ [(key, ⟨toString keys.length⟩)] := by
  simp [numbered, List.zipIdx_append]

theorem id_injective {first second : Nat}
    (h : (⟨toString first⟩ : ScopeId) = ⟨toString second⟩) : first = second := by
  have hdigits : Nat.toDigits 10 first = Nat.toDigits 10 second := by
    have htext := ScopeId.mk.inj h
    rwa [Nat.toString_eq_ofList_toDigits, Nat.toString_eq_ofList_toDigits,
      String.ofList_inj] at htext
  rw [← Nat.ofDigitChars_ten_toDigits (n := first), hdigits, Nat.ofDigitChars_ten_toDigits]

/-- The keys hold their numbers, which are all that were given out. -/
structure Numbers (registry : Registry Nat) (keys : List Key) : Prop where
  generator : registry.generator = sequentialIds
  state : registry.state = keys.length
  assigned : registry.assigned = numbered keys
  taken : ∀ id ∈ registry.taken, ∃ number < keys.length, id = ⟨toString number⟩

theorem numbers_new : (new sequentialIds 0).Numbers [] :=
  ⟨rfl, rfl, rfl, fun _ hid => absurd hid List.not_mem_nil⟩

namespace Numbers

variable {registry : Registry Nat} {keys : List Key} {key : Key} (h : registry.Numbers keys)

include h

theorem lookup_eq_none (hnew : key ∉ keys) : registry.assigned.lookup key = none := by
  rw [List.lookup_eq_none_iff]
  rintro ⟨other, id⟩ hentry
  have hother : other ∈ keys := by
    rw [← map_fst_numbered keys, ← h.assigned]
    exact List.mem_map_of_mem hentry
  exact bne_iff_ne.mpr fun heq => hnew (heq ▸ hother)

/-- A key that has a number keeps it, and a new one gets the next. -/
theorem assign?_of_mem (hmem : key ∈ keys) : ∃ id, registry.assign? key = some (id, registry) := by
  rw [← map_fst_numbered keys, ← h.assigned] at hmem
  cases hlookup : registry.assigned.lookup key with
  | some id => exact ⟨id, by rw [assign?, hlookup]⟩
  | none => exact absurd hmem (notMem_keys_of_lookup hlookup)

theorem assign?_of_notMem (hnew : key ∉ keys) :
    ∃ id later, registry.assign? key = some (id, later) ∧ later.Numbers (keys ++ [key]) := by
  have hfree : (⟨toString registry.state⟩ : ScopeId) ∉ registry.taken := by
    intro hmem
    obtain ⟨number, hlt, heq⟩ := h.taken _ hmem
    rw [h.state] at heq
    exact absurd (id_injective heq) (by omega)
  have hsearch : registry.firstFree key maxAttempts 0 registry.state
      = some (⟨toString registry.state⟩, registry.state + 1) := by
    rw [maxAttempts, firstFree, h.generator]
    exact if_neg hfree
  refine ⟨⟨toString registry.state⟩, _, by rw [assign?, h.lookup_eq_none hnew, hsearch]; rfl, ?_⟩
  refine ⟨h.generator, ?_, ?_, ?_⟩
  · rw [List.length_append, List.length_singleton, h.state]
  · rw [numbered_concat, h.assigned, h.state]
  · intro id hid
    rw [List.length_append, List.length_singleton]
    rcases List.mem_cons.mp hid with rfl | hid
    · exact ⟨registry.state, by rw [h.state]; omega, rfl⟩
    · obtain ⟨number, hlt, heq⟩ := h.taken id hid
      exact ⟨number, by omega, heq⟩

end Numbers

open Layout (assignAll)

/-- Keys are numbered in the order in which they come up first. -/
theorem Numbers.assignAll {keys before : List Key} {registry : Registry Nat}
    (h : registry.Numbers before.eraseDups) :
    ∃ later, assignAll registry keys = .ok later ∧ later.Numbers (before ++ keys).eraseDups := by
  induction keys generalizing before registry with
  | nil => exact ⟨registry, rfl, by rwa [List.append_nil]⟩
  | cons key keys ih =>
    by_cases hkey : key ∈ before
    · obtain ⟨id, hassign⟩ := h.assign?_of_mem (List.mem_eraseDups.mpr hkey)
      rw [Mount.eraseDups_append_cons hkey, Layout.assignAll, hassign]
      exact ih h
    · obtain ⟨id, middle, hassign, hmiddle⟩ := h.assign?_of_notMem (mt List.mem_eraseDups.mp hkey)
      have hdistinct : (before ++ [key]).eraseDups = before.eraseDups ++ [key] := by
        rw [List.eraseDups_append]
        simp [List.removeAll, hkey, List.eraseDups_cons]
      rw [← hdistinct] at hmiddle
      rw [Layout.assignAll, hassign, ← List.singleton_append, ← List.append_assoc]
      exact ih hmiddle

theorem exists_assignAll_new (keys : List Key) :
    ∃ later, assignAll (Registry.new sequentialIds 0) keys = .ok later ∧
      later.Numbers keys.eraseDups :=
  @Numbers.assignAll keys [] _ numbers_new

/-- A key holds a number exactly if it stands at that place. -/
theorem lookup_numbered_iff {keys : List Key} (hkeys : keys.Nodup) {key : Key} {number : Nat} :
    (numbered keys).lookup key = some ⟨toString number⟩ ↔ keys[number]? = some key := by
  constructor
  · intro hlookup
    obtain ⟨before, after, hnumbered, -⟩ := List.lookup_eq_some_iff.mp hlookup
    have hmem : (key, ⟨toString number⟩) ∈ numbered keys := by rw [hnumbered]; simp
    obtain ⟨other, hkey, heq⟩ := mem_numbered_iff.mp hmem
    rwa [id_injective heq]
  · intro hkey
    have hmem := mem_numbered_iff.mpr ⟨number, hkey, rfl⟩
    cases hlookup : (numbered keys).lookup key with
    | none =>
      exact absurd rfl (bne_iff_ne.mp (List.lookup_eq_none_iff.mp hlookup _ hmem))
    | some id =>
      obtain ⟨before, after, hnumbered, -⟩ := List.lookup_eq_some_iff.mp hlookup
      have hheld : (key, id) ∈ numbered keys := by rw [hnumbered]; simp
      rw [← map_fst_numbered keys] at hkeys
      exact congrArg some (congrArg Prod.snd (List.inj_on_of_nodup_map hkeys hheld hmem rfl))

end Registry

/-! ### Sites -/

theorem nodup_eraseDups {α : Type} [BEq α] [LawfulBEq α] (items : List α) :
    items.eraseDups.Nodup := by
  cases items with
  | nil => exact List.nodup_nil
  | cons a items =>
    rw [List.eraseDups_cons]
    refine List.nodup_cons.mpr ⟨?_, nodup_eraseDups _⟩
    rw [List.mem_eraseDups, List.mem_filter]
    simp
termination_by items.length
decreasing_by exact Nat.lt_succ_of_le (List.length_filter_le _ _)

namespace Layout

variable {root : Mount} {output : Path} {session later : Session} {layout : Layout}

/-- The identifiers of a site that is laid out with numbers. -/
theorem scopes_of_walk
    (h : (walk root output (Registry.new sequentialIds 0)).run.run session = (.ok layout, later)) :
    layout.scopes = Registry.numbered root.keysMet := by
  rw [walk] at h
  obtain ⟨_, _, -, h⟩ := run_bind_eq_ok h
  obtain ⟨registry, _, hassign, h⟩ := run_bind_eq_ok h
  cases h
  rw [Job.run_ofExcept] at hassign
  obtain ⟨last, hlast, hnumbers⟩ :=
    Registry.exists_assignAll_new (scopeOrder (PageTree.ofMount output root).pages [])
  rw [hlast] at hassign
  cases hassign
  rw [root.keysMet_eq output]
  exact hnumbers.assigned

/-- A key of a site that is laid out with numbers has the class of a number exactly if it is the one
that the walk meets first at that place among all keys, and a key that is not met has none. -/
theorem numbers_in_order_met
    (h : (walk root output (Registry.new sequentialIds 0)).run.run session = (.ok layout, later)) :
    (∀ (key : Key) (number : Nat),
      (∃ id, layout.scope key = .ok id ∧ id.className = "-q" ++ toString number)
        ↔ root.keysMet[number]? = some key) ∧
    ∀ key, key ∉ root.keysMet → layout.scope key = .error (.of (.layout (.unknownScope key))) := by
  have hscopes := scopes_of_walk h
  have hkeys : root.keysMet.Nodup := nodup_eraseDups _
  refine ⟨fun key number => ?_, fun key hkey => ?_⟩
  · rw [← Registry.lookup_numbered_iff hkeys, ← hscopes, scope]
    constructor
    · rintro ⟨id, hid, hclass⟩
      cases hlookup : layout.scopes.lookup key with
      | none =>
        rw [hlookup] at hid
        cases hid
      | some held =>
        rw [hlookup] at hid
        cases hid
        have htext : id.text = toString number := by
          simpa [ScopeId.className] using hclass
        rw [← htext]
    · intro hlookup
      rw [hlookup]
      exact ⟨_, rfl, rfl⟩
  · have hnone : layout.scopes.lookup key = none := by
      rw [List.lookup_eq_none_iff]
      rintro ⟨other, id⟩ hentry
      rw [hscopes] at hentry
      have hother := List.mem_map_of_mem (f := Prod.fst) hentry
      rw [Registry.map_fst_numbered] at hother
      exact bne_iff_ne.mpr fun heq => hkey (heq ▸ hother)
    rw [scope, hnone]

/-! ### A badge on a card, and on a page of its own -/

section Notes

/-- A page that embeds a badge and a pin. -/
def notes : Mount :=
  .mk ⟨"notes", ⟨"notes.html"⟩, none, [], [], [], [], none⟩ none
    [badge, .mk ⟨"pin", ⟨"pin.html"⟩, some "x-pin", [], [], [], [], none⟩ none [] []] []

/-- A page that embeds a card, with the badge of the card and the notes as pages below it. -/
def album : Mount :=
  .mk ⟨"index", ⟨"home.html"⟩, none, [], [], [], [], none⟩ none [card] [badge, notes]

theorem exists_walk_album :
    ∃ layout, (walk album ⟨"out"⟩ (Registry.new sequentialIds 0)).run.run ⟨folders [], []⟩
      = (.ok layout, ⟨folders [["out"], ["out", "badge"], ["out", "notes"]], []⟩) := by
  have hbadge : (folders [["out"]]).makeDirectories ((Path.mk "out").join ⟨"badge"⟩)
      = (none, folders [["out"], ["out", "badge"]]) := by
    have hplace : (folders [["out"]]).Names ((Path.mk "out").join ⟨"badge"⟩)
        ⟨[], ["out", "badge"], false⟩ ["out"] "badge" :=
      names_below_out rfl (by decide) (by decide) (by decide)
    exact Disk.makeDirectories_of_free hplace rfl
  have hnotes : (folders [["out"], ["out", "badge"]]).makeDirectories
      ((Path.mk "out").join ⟨"notes"⟩)
        = (none, folders [["out"], ["out", "badge"], ["out", "notes"]]) := by
    have hplace : (folders [["out"], ["out", "badge"]]).Names ((Path.mk "out").join ⟨"notes"⟩)
        ⟨[], ["out", "notes"], false⟩ ["out"] "notes" :=
      names_below_out rfl (by decide) (by decide) (by decide)
    exact Disk.makeDirectories_of_free hplace rfl
  have hfirst : (visit ((Path.mk "out").join ⟨badge.name⟩) badge [album.key]).run.run
        ⟨folders [["out"]], []⟩
      = (.ok [badge.key, album.key], ⟨folders [["out"], ["out", "badge"]], []⟩) :=
    run_visit_leaf (by decide) hbadge
  have hsecond : (visit ((Path.mk "out").join ⟨notes.name⟩) notes [badge.key, album.key]).run.run
        ⟨folders [["out"], ["out", "badge"]], []⟩
      = (.ok [notes.key, badge.key, album.key],
        ⟨folders [["out"], ["out", "badge"], ["out", "notes"]], []⟩) :=
    run_visit_leaf (by decide) hnotes
  have hvisit : (visit ⟨"out"⟩ album []).run.run ⟨folders [], []⟩
      = (.ok [notes.key, badge.key, album.key],
        ⟨folders [["out"], ["out", "badge"], ["out", "notes"]], []⟩) := by
    rw [album, run_visit List.not_mem_nil makeDirectories_out]
    refine (run_visitChildren (by decide) List.not_mem_nil hfirst).trans ?_
    exact run_visitChildren (by decide) (by decide) hsecond
  obtain ⟨registry, hassign, -⟩ :=
    Registry.exists_assignAll_new (scopeOrder (PageTree.ofMount ⟨"out"⟩ album).pages [])
  rw [walk, run_bind, hvisit]
  dsimp only
  rw [hassign]
  exact ⟨_, rfl⟩

theorem keysMet_album :
    album.keysMet = [album.key, card.key, badge.key, notes.key, Key.of "pin" ⟨"pin.html"⟩] := by
  have hkeys : Mount.encounters [.page album] [] = [album.key, card.key, badge.key, badge.key,
      notes.key, badge.key, Key.of "pin" ⟨"pin.html"⟩] := by
    simp [Mount.encounters, album, card, badge, notes, Mount.imports, Mount.children, Mount.key]
    rfl
  rw [Mount.keysMet, hkeys]
  decide

/-- The badge has the number of its place on the card, and the notes have the number after it. -/
theorem album_numbers :
    ∃ layout, (walk album ⟨"out"⟩ (Registry.new sequentialIds 0)).run.run ⟨folders [], []⟩
        = (.ok layout, ⟨folders [["out"], ["out", "badge"], ["out", "notes"]], []⟩) ∧
      (∃ id, layout.scope badge.key = .ok id ∧ id.className = "-q2") ∧
      (∃ id, layout.scope notes.key = .ok id ∧ id.className = "-q3") ∧
      layout.scope ⟨"news@news.html"⟩
        = .error (.of (.layout (.unknownScope ⟨"news@news.html"⟩))) := by
  obtain ⟨layout, hwalk⟩ := exists_walk_album
  obtain ⟨hnumbers, hunknown⟩ := numbers_in_order_met hwalk
  rw [keysMet_album] at hnumbers hunknown
  exact ⟨layout, hwalk, (hnumbers badge.key 2).mpr rfl, (hnumbers notes.key 3).mpr rfl,
    hunknown _ (by decide)⟩

end Notes

end Layout

end SiteTree
