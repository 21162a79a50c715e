import ChartPipeline.Proofs.Assembly.Content

/-!
# How records get their names

In a tidy forest no name has to be made up for a record on its way down: where it is completed, it
has a name of its own, or that of a checkpoint that has to be addressable. Each of these names is
used once at most (`Planted.labelled`).
-/

namespace ChartPipeline

def Node.checkpointName? : Node → Option String
  | .checkpoint c => some c.name
  | _ => none

namespace Assembly

open Forest (Leads)

/-- There is one way to go on, and it goes on to work on rows, or to a checkpoint. -/
def Onward (row : Forest Vertex) : Prop :=
  ∃ v below, row = .cons v below .nil ∧ v.node.isParse = false ∧ v.node.isFacet = false

/-- A node in its place: a checkpoint has to be addressable there, and a node that works on rows
neither ends nor branches. -/
structure Settled (above n : Node) (below : Forest Vertex) : Prop where
  demanded : n.isCheckpoint = true → Graph.demands (some above) n = true
  onward : n.isParse = false → n.isCheckpoint = false → n.isFacet = false → Onward below

def Tidy (above : Node) : Forest Vertex → Prop
  | .nil => True
  | .cons v below rest => Settled above v.node below ∧ Tidy v.node below ∧ Tidy above rest

/-- A record in hand has a name, if one is needed in the row. -/
inductive Carried (r : Record) (row : Forest Vertex) : Prop
  | refer : r = .ofSource s → Carried r row
  | named : r.name = some n → Carried r row
  | onward : Onward row → Carried r row

/-- The label of a node is the name that it gets as a source, or as a checkpoint of that name. -/
def Labels (label : Vertex → Option String) (steps : List Step) (v : Vertex) : Prop :=
  ∀ n, .name v.id n ∈ steps → v.node.isSource = true ∨ v.node.checkpointName? = some n →
    label v = some n

def Labelled (names : List String) (steps : List Step) : Prop :=
  ∃ taken : List String,
    (emittedOf steps).map Record.name = taken.map some ∧ taken.Sublist names

variable {above : Node} {v : Vertex} {below row rest : Forest Vertex} {r p q : Record}
  {before new first second third last : List Step} {n : String} {names more : List String}
  {label : Vertex → Option String} {t u : Tree Vertex} {trees queue : List (Tree Vertex)}
  {path : List Vertex} {f : Forest Vertex}

theorem Labels.left (h : Labels label (first ++ second) v) : Labels label first v :=
  fun n hn => h n (List.mem_append_left _ hn)

theorem Labels.right (h : Labels label (first ++ second) v) : Labels label second v :=
  fun n hn => h n (List.mem_append_right _ hn)

theorem tidy_append (g h : Forest Vertex) :
    Tidy above (g ++ h) ↔ Tidy above g ∧ Tidy above h := by
  induction g with
  | nil => exact (and_iff_right trivial).symm
  | cons v below rest _ ih =>
    change Settled above v.node below ∧ Tidy v.node below ∧ Tidy above (rest ++ h) ↔ _
    rw [ih, Tidy, and_assoc, and_assoc]

theorem Tidy.leads (h : Tidy above row) (hl : row.Leads path u) : Tidy u.label.node u.below := by
  induction hl generalizing above with
  | here => exact h.2.1
  | down _ ih => exact ih h.2.1
  | along _ ih => exact ih h.2.2

-- ---------------------------------------------------------------------------
-- Names in order
-- ---------------------------------------------------------------------------

theorem labelled_of_emittedOf (h : emittedOf new = []) : Labelled names new :=
  ⟨[], by rw [h]; rfl, List.nil_sublist _⟩

theorem Labelled.append (h : Labelled names first) (h' : Labelled more second) :
    Labelled (names ++ more) (first ++ second) := by
  obtain ⟨taken, hn, hs⟩ := h
  obtain ⟨taken', hn', hs'⟩ := h'
  exact ⟨taken ++ taken', by simp [hn, hn'], hs.append hs'⟩

theorem Labelled.append_idle (h : Labelled names first) (hn : emittedOf second = []) :
    Labelled names (first ++ second) := by
  obtain ⟨taken, hnames, hs⟩ := h
  exact ⟨taken, by simp [hnames, hn], hs⟩

theorem Labelled.idle_append (h : Labelled names second) (hn : emittedOf first = []) :
    Labelled names (first ++ second) := by
  obtain ⟨taken, hnames, hs⟩ := h
  exact ⟨taken, by simp [hnames, hn], hs⟩

theorem Labelled.mono (h : Labelled names new) (hs : names.Sublist more) : Labelled more new := by
  obtain ⟨taken, hn, ht⟩ := h
  exact ⟨taken, hn, ht.trans hs⟩

theorem labelled_emit (h : r.name = some n) : Labelled [n] [.emit r] :=
  ⟨[n], by simp [h], .refl _⟩

-- ---------------------------------------------------------------------------
-- Records on their way down
-- ---------------------------------------------------------------------------

theorem Completed.labelled (h : Completed r new n) (hr : Carried r row) (hrow : ¬ Onward row) :
    Labelled r.name.toList new := by
  cases h with
  | refer => exact labelled_of_emittedOf rfl
  | emit ha hn =>
    cases hr with
    | refer hs => exact absurd (Record.isAlias_iff.mpr ⟨_, hs⟩) (by simp [ha])
    | named hname =>
      obtain rfl := hn _ hname
      rw [hname]
      exact labelled_emit rfl
    | onward h => exact absurd h hrow

theorem Passed.carried (h : Passed above v below r new (some p))
    (hr : Carried r (.cons v below rest)) (hs : Settled above v.node below) : Carried p below := by
  cases h with
  | parse hv =>
    cases hr with
    | refer h => exact .refer h
    | named h => exact .named h
    | onward h =>
      obtain ⟨w, inner, he, hparse, -⟩ := h
      obtain ⟨rfl, -⟩ := Forest.cons.inj he
      simp [hv, Node.isParse] at hparse
  | ignored hv hi =>
    have hd := hs.demanded (by rw [hv]; rfl)
    obtain ⟨s, rfl⟩ := Record.isAlias_iff.mp (hi.resolve_left (by simp [hd]))
    exact .refer rfl
  | last => exact .named rfl
  | «sealed» => exact .refer rfl
  | row hparse hcheckpoint hfacet => exact .onward (hs.onward hparse hcheckpoint hfacet)

theorem HandedOver.carried (h : HandedOver r row new q) (hr : Carried r row) : Carried q row := by
  cases h with
  | fork => exact .refer rfl
  | _ => exact hr

theorem Carried.tail (h : Carried r (.cons v below rest)) : rest = .nil ∨ Carried r rest := by
  cases h with
  | refer h => exact .inr (.refer h)
  | named h => exact .inr (.named h)
  | onward h =>
    obtain ⟨w, inner, he, -⟩ := h
    exact .inl (Forest.cons.inj he).2.2

theorem Passed.labelled (h : Passed above v below r new (some p)) (hs : Settled above v.node below)
    (hl : Labels label new v) : ∃ done, Labelled done new ∧
      (done ++ p.name.toList).Sublist (r.name.toList ++ (label v).toList) := by
  have hstay (hn : emittedOf new = []) (hp : p.name = r.name) : ∃ done, Labelled done new ∧
      (done ++ p.name.toList).Sublist (r.name.toList ++ (label v).toList) :=
    ⟨[], labelled_of_emittedOf hn, by rw [hp]; exact List.sublist_append_left _ _⟩
  have htaken {c : Checkpoint} (hv : v.node = .checkpoint c)
      (hstep : .name v.id (r.name.getD c.name) ∈ new) :
      [r.name.getD c.name].Sublist (r.name.toList ++ (label v).toList) := by
    cases hr : r.name with
    | some m => exact List.sublist_append_left _ _
    | none =>
      rw [hr] at hstep
      rw [hl c.name hstep (.inr (by rw [hv]; rfl))]
      exact .refl _
  cases h with
  | parse => exact hstay (by split <;> simp) rfl
  | ignored hv hi =>
    have hd := hs.demanded (by rw [hv]; rfl)
    obtain ⟨s, rfl⟩ := Record.isAlias_iff.mp (hi.resolve_left (by simp [hd]))
    exact hstay (by simp [Record.ofSource]) rfl
  | last hv _ _ hn =>
    subst hn
    exact ⟨[], labelled_of_emittedOf rfl, htaken hv (by simp)⟩
  | @sealed c n hv _ hn =>
    subst hn
    exact ⟨[_], ⟨[_], rfl, .refl _⟩, htaken hv (by simp)⟩
  | row => exact hstay (by simp [Function.comp_def]) rfl

theorem HandedOver.labelled {up : Node} (h : HandedOver r row first q) (hr : Carried r row)
    (hw : Walked up q row last) (hlast : Carried q row → q.name = none ∨ row.roots.length ≤ 1 →
      Labelled (q.name.toList ++ names) last) :
    Labelled (r.name.toList ++ names) (first ++ last) := by
  cases h with
  | dropped =>
    cases hw
    exact labelled_of_emittedOf rfl
  | leaf ha =>
    cases hw
    cases hr with
    | refer hs => exact absurd (Record.isAlias_iff.mpr ⟨_, hs⟩) (by simp [ha])
    | named hn =>
      rw [hn]
      exact (labelled_emit hn).mono (List.sublist_append_left _ _)
    | onward h =>
      obtain ⟨_, _, he, -⟩ := h
      cases he
  | only => exact hlast hr (.inr (Nat.le_refl _))
  | fork h =>
    refine (h.labelled hr ?_).append (hlast (.refer rfl) (.inl rfl))
    rintro ⟨_, _, he, -⟩
    cases he

theorem Carried.exclusive (hr : Carried r (.cons v below rest))
    (hone : r.name = none ∨ (Forest.cons v below rest).roots.length ≤ 1) :
    rest = .nil ∨ ∃ s, r = .ofSource s := by
  cases hr with
  | refer hs => exact .inr ⟨_, hs⟩
  | onward h =>
    obtain ⟨w, inner, he, -⟩ := h
    exact .inl (Forest.cons.inj he).2.2
  | named hn =>
    rcases hone with hone | hone
    · rw [hn] at hone
      cases hone
    · cases rest with
      | nil => exact .inl rfl
      | cons => simp [Forest.roots] at hone

theorem Walked.labelled_rest (hw : Walked above r rest last) (hr : Carried r (.cons v below rest))
    (hone : r.name = none ∨ (Forest.cons v below rest).roots.length ≤ 1)
    (hlast : Carried r rest → r.name = none ∨ rest.roots.length ≤ 1 →
      Labelled (r.name.toList ++ names) last) : Labelled names last := by
  rcases hr.exclusive hone with rfl | ⟨s, rfl⟩
  · cases hw
    exact labelled_of_emittedOf rfl
  · exact hlast (.refer rfl) (.inl rfl)

/-- What a walk completes is named by the record in hand and by the checkpoints it comes to. -/
theorem Walked.labelled (h : Walked above r row new) (ht : Tidy above row) (hr : Carried r row)
    (hone : r.name = none ∨ row.roots.length ≤ 1)
    (hl : ∀ v ∈ row.toList, Labels label new v) :
    Labelled (r.name.toList ++ (reach row).filterMap label) new := by
  induction h with
  | nil => exact labelled_of_emittedOf rfl
  | @stop above v below r first rest last h hw ih =>
    simp only [Forest.toList, List.forall_mem_cons, List.forall_mem_append] at hl
    have hrest := hw.labelled_rest hr hone fun hr hone =>
      ih ht.2.2 hr hone fun w hw => (hl.2.2 w hw).right
    cases h with
    | @facet f first n hv h =>
      have hfacet : atFacet v = true := by rw [atFacet, hv]; rfl
      have hfirst : Labelled r.name.toList (first ++ [.name v.id n]) := by
        refine (h.labelled hr ?_).append_idle rfl
        rintro ⟨w, inner, he, -, hw⟩
        obtain ⟨rfl, -⟩ := Forest.cons.inj he
        simp [hfacet] at hw
      refine (hfirst.append hrest).mono ((List.Sublist.refl _).append ?_)
      rw [reach_cons, hfacet, if_pos rfl, List.nil_append]
      exact (List.sublist_cons_self _ _).filterMap label
  | @through above v below r first p second q third rest last h hh hw hw' ihb ihr =>
    simp only [Forest.toList, List.forall_mem_cons, List.forall_mem_append] at hl
    have hrest := hw'.labelled_rest hr hone fun hr hone =>
      ihr ht.2.2 hr hone fun w hw => (hl.2.2 w hw).right
    obtain ⟨done, hdone, hsub⟩ := h.labelled ht.1 hl.1.left.left.left
    have hbelow := hh.labelled (h.carried hr ht.1) hw fun hq hone =>
      ihb ht.2.1 hq hone fun w hw => (hl.2.1 w hw).left.right
    have hv : atFacet v = false := h.not_facet
    have hall := (hdone.append hbelow).append hrest
    rw [← List.append_assoc first] at hall
    refine hall.mono ?_
    have hnames : (reach (.cons v below rest)).filterMap label =
        (label v).toList ++ (reach below).filterMap label ++ (reach rest).filterMap label := by
      rw [reach_cons, hv, if_neg (by simp), ← List.cons_append, List.filterMap_append,
        ← List.singleton_append, List.filterMap_append]
      cases hlv : label v <;> simp [hlv]
    rw [hnames, ← List.append_assoc, ← List.append_assoc, ← List.append_assoc]
    exact (hsub.append (.refl _)).append (.refl _)

-- ---------------------------------------------------------------------------
-- Whole assemblies
-- ---------------------------------------------------------------------------

/-- The name that a node has for records: the one that a source gets, or a checkpoint of that
name. -/
def labelIn (steps : List Step) (v : Vertex) : Option String :=
  (Trail.nameOf? { steps } v.id).filter fun n =>
    v.node.isSource || v.node.checkpointName? == some n

theorem exists_of_labelIn {steps : List Step} (h : labelIn steps v = some n) :
    .name v.id n ∈ steps ∧ (v.node.isSource = true ∨ v.node.checkpointName? = some n) := by
  obtain ⟨hn, hv⟩ := Option.filter_eq_some_iff.mp h
  exact ⟨mem_of_nameOf? hn, by simpa using hv⟩

theorem labels_labelIn {steps : List Step} (h : (namedBy steps).Nodup) (v : Vertex) :
    Labels (labelIn steps) steps v :=
  fun _ hn hv => Option.filter_eq_some_iff.mpr ⟨nameOf?_eq_some h hn, by simpa using hv⟩

/-- Trees in which no node has to make up a name for a record. -/
structure Clear (t : Tree Vertex) : Prop where
  tidy : Tidy t.label.node t.below
  inner : ∀ v ∈ t.below.toList, v.node.isSource = false

theorem Clear.leads (h : Clear t) (hl : t.below.Leads path u) : Clear u where
  tidy := h.tidy.leads hl
  inner v hv := h.inner v (hl.sublist.subset (List.mem_cons_of_mem _ hv))

theorem clear_facets (h : ∀ t ∈ trees, Clear t) : ∀ u ∈ facets trees, Clear u := by
  intro u hu
  obtain ⟨t, ht, -, path, hl⟩ := mem_facets.mp hu
  exact (h t ht).leads hl

theorem name_seedRecord (s : Source) (n : String) (below : Forest Vertex) :
    (seedRecord s n below).name = some n := by
  unfold seedRecord Record.withCoercions
  split <;> rfl

theorem Started.labelled (h : Started t new) (ht : t.label.node.isSource = true) (hc : Clear t)
    (hl : ∀ v ∈ t.toList, Labels label new v) :
    Labelled ((t.label :: reach t.below).filterMap label) new := by
  obtain ⟨hroot, hl⟩ := List.forall_mem_cons.mp hl
  cases h with
  | stray h => simp [h] at ht
  | @source s n first q last told hv hh hw =>
    have hwalk : Labelled (_ ++ (reach t.below).filterMap label) (first ++ last) :=
      hh.labelled (.named (name_seedRecord s n t.below)) hw fun hq hone =>
        hw.labelled hc.tidy hq hone fun v hv => (hl v hv).right
    rw [name_seedRecord] at hwalk
    rw [List.filterMap_cons_some (hroot n (by simp) (.inl ht)), List.append_assoc]
    exact hwalk.idle_append (by simp [Function.comp_def])

theorem Entered.labelled (h : Entered f before t new) (hc : Clear t)
    (hl : ∀ v ∈ t.below.toList, Labels label new v) :
    Labelled ((reach t.below).filterMap label) new := by
  cases h with
  | @intro s path n last _ _ _ _ hw =>
    have hwalk : Labelled (_ ++ (reach t.below).filterMap label) last :=
      hw.labelled hc.tidy (.refer rfl) (.inl rfl) fun v hv => (hl v hv).right
    exact hwalk.idle_append (by simp [Function.comp_def])

theorem labelled_of_started {parts : List (List Step)} (h : List.Forall₂ Started trees parts)
    (hs : ∀ t ∈ trees, t.label.node.isSource = true) (hc : ∀ t ∈ trees, Clear t)
    (hl : ∀ t ∈ trees, ∀ v ∈ t.toList, Labels label parts.flatten v) :
    Labelled ((trees.flatMap fun t => t.label :: reach t.below).filterMap label)
      parts.flatten := by
  induction h with
  | nil => exact labelled_of_emittedOf rfl
  | @cons t part trees parts h _ ih =>
    obtain ⟨ht, hs⟩ := List.forall_mem_cons.mp hs
    obtain ⟨hct, hc⟩ := List.forall_mem_cons.mp hc
    obtain ⟨hlt, hl⟩ := List.forall_mem_cons.mp hl
    have hfirst := h.labelled ht hct fun v hv => (hlt v hv).left
    have hlater := ih hs hc fun t ht v hv => (hl t ht v hv).right
    rw [List.flatMap_cons, List.filterMap_append]
    exact hfirst.append hlater

theorem Followed.labelled (h : Followed f before queue new) (hc : ∀ t ∈ queue, Clear t)
    (hl : ∀ t ∈ queue, ∀ v ∈ t.below.toList, Labels label new v) :
    Labelled ((queue.flatMap fun t => reach t.below).filterMap label) new := by
  induction h with
  | nil => exact labelled_of_emittedOf rfl
  | cons h _ ih =>
    obtain ⟨hct, hc⟩ := List.forall_mem_cons.mp hc
    obtain ⟨hlt, hl⟩ := List.forall_mem_cons.mp hl
    rw [List.flatMap_cons, List.filterMap_append]
    exact (h.labelled hct fun v hv => (hlt v hv).left).append
      (ih hc fun t ht v hv => (hl t ht v hv).right)

/-- Every record that is no index record is named by a source or by a checkpoint, and each of them
names one at most. -/
theorem Planted.labelled (h : Planted f trees) (hc : ∀ t ∈ trees, Clear t) : ∃ taken : List String,
    (emittedOf (stepsOf trees)).map Record.name = taken.map some ∧
      taken.Subperm ((trees.flatMap Tree.toList).filterMap (labelIn (stepsOf trees))) := by
  obtain ⟨parts, last, hs, hp, hfollow⟩ := h.exists_parts
  have hlabels (v : Vertex) : Labels (labelIn (stepsOf trees)) (parts.flatten ++ last) v :=
    hs ▸ labels_labelIn h.nodup_stepsOf v
  obtain ⟨taken, hnames, htaken⟩ :=
    (labelled_of_started hp h.sources hc fun _ _ v _ => (hlabels v).left).append
      (hfollow.labelled (clear_facets hc) fun _ _ v _ => (hlabels v).right)
  refine ⟨taken, hs ▸ hnames, htaken.subperm.trans (List.Perm.subperm ?_)⟩
  rw [← List.filterMap_append]
  exact (perm_parts trees).filterMap _

end Assembly

end ChartPipeline
