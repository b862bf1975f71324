import HighloadCup.Service

/-!
# Schedules

What a client can learn does not depend on the worker. The service lets the worker choose when a
changed visit is shown; `Agrees` compares two services by their visits with every accepted change,
and what is shown is looked at only for which ids there are. Steps of the worker do not lead out of
it (`Agrees.silent`), and every request is answered alike (`Agrees.step`). So two runs with the
same requests give the same answers, up to the texts of visits (`schedule_independent`).
-/

namespace HighloadCup

open Bytes Json Transition

namespace Kind

/-- Different kinds have different names. -/
theorem name_injective : Function.Injective name := by
  intro kind kind' h
  cases kind <;> cases kind' <;> first | rfl | exact absurd h (by decide)

end Kind

namespace Service

variable {rapidjson : Bytes → Option Value} {t t' u : Service} {json name : Bytes} {kind : Kind}
  {id : UInt32} {response : Response}

/-! ## The service answers in one way -/

/-- An insertion has one result. -/
theorem Creates.unique {t₁ t₂ : Service} (h₁ : t.Creates rapidjson json kind t₁)
    (h₂ : t.Creates rapidjson json kind t₂) : t₁ = t₂ := by
  cases h₁ with
  | user members user body describes free =>
      cases h₂ with
      | user members' user' body' describes' free' =>
          have hfill : User.deserializate rapidjson json false User.new = (.ok true, user) :=
            User.deserializate_insert_iff.mpr ⟨members, body, describes⟩
          have hfill' : User.deserializate rapidjson json false User.new = (.ok true, user') :=
            User.deserializate_insert_iff.mpr ⟨members', body', describes'⟩
          obtain rfl : user = user' := (Prod.mk.inj (hfill.symm.trans hfill')).2
          rfl
  | visit members visit body describes free =>
      cases h₂ with
      | visit members' visit' body' describes' free' =>
          have hfill : Visit.deserializate rapidjson json false Visit.new = (.ok true, visit) :=
            Visit.deserializate_insert_iff.mpr ⟨members, body, describes⟩
          have hfill' : Visit.deserializate rapidjson json false Visit.new = (.ok true, visit') :=
            Visit.deserializate_insert_iff.mpr ⟨members', body', describes'⟩
          obtain rfl : visit = visit' := (Prod.mk.inj (hfill.symm.trans hfill')).2
          rfl
  | location members location body describes free =>
      cases h₂ with
      | location members' location' body' describes' free' =>
          have hfill : Location.deserializate rapidjson json false Location.new =
              (.ok true, location) :=
            Location.deserializate_insert_iff.mpr ⟨members, body, describes⟩
          have hfill' : Location.deserializate rapidjson json false Location.new =
              (.ok true, location') :=
            Location.deserializate_insert_iff.mpr ⟨members', body', describes'⟩
          obtain rfl : location = location' := (Prod.mk.inj (hfill.symm.trans hfill')).2
          rfl

/-- An update has one result. -/
theorem Patches.unique {t₁ t₂ : Service} (h₁ : t.Patches rapidjson id json kind t₁)
    (h₂ : t.Patches rapidjson id json kind t₂) : t₁ = t₂ := by
  cases h₁ with
  | user members user body valid stored =>
      cases h₂ with
      | user members' user' body' valid' stored' =>
          cases body.symm.trans body'
          cases stored.symm.trans stored'
          rfl
  | visit members visit body valid stored =>
      cases h₂ with
      | visit members' visit' body' valid' stored' =>
          cases body.symm.trans body'
          cases stored.symm.trans stored'
          rfl
  | location members location body valid stored =>
      cases h₂ with
      | location members' location' body' valid' stored' =>
          cases body.symm.trans body'
          cases stored.symm.trans stored'
          rfl

/-- The two things an insertion can do. -/
theorem ServiceStep.insert_cases
    (h : ServiceStep rapidjson t (.insert name json, response) t') :
    (∃ kind : Kind, name = kind.name ∧ response = .inserted true ∧
        t.Creates rapidjson json kind t') ∨
      (response = .inserted false ∧ t' = t ∧
        ∀ (kind : Kind) (t' : Service), name = kind.name → ¬ t.Creates rapidjson json kind t') := by
  generalize hlabel : (Event.insert name json, response) = label at h
  cases h with
  | created kind json' t' creates =>
      cases hlabel
      exact .inl ⟨kind, rfl, rfl, creates⟩
  | refused name' json' refuses =>
      cases hlabel
      exact .inr ⟨rfl, rfl, refuses⟩
  | internal event internal =>
      cases hlabel
      exact internal.elim
  | _ => cases hlabel

/-- The four things an update can do. -/
theorem ServiceStep.update_cases
    (h : ServiceStep rapidjson t (.update id name json, response) t') :
    (∃ kind : Kind, name = kind.name ∧
        ((response = .updated 200 ∧ t.Patches rapidjson id json kind t') ∨
          (response = .updated 400 ∧ t' = t ∧ t.Has id kind ∧
            ∀ t', ¬ t.Patches rapidjson id json kind t') ∨
          (response = .updated 404 ∧ t' = t ∧ ¬ t.Has id kind))) ∨
      (response = .updated 400 ∧ t' = t ∧ ∀ kind : Kind, name ≠ kind.name) := by
  generalize hlabel : (Event.update id name json, response) = label at h
  cases h with
  | patched kind id' json' t' patches =>
      cases hlabel
      exact .inl ⟨kind, rfl, .inl ⟨rfl, patches⟩⟩
  | invalid kind id' json' has refuses =>
      cases hlabel
      exact .inl ⟨kind, rfl, .inr (.inl ⟨rfl, rfl, has, refuses⟩)⟩
  | missing kind id' json' absent =>
      cases hlabel
      exact .inl ⟨kind, rfl, .inr (.inr ⟨rfl, rfl, absent⟩)⟩
  | unknown name' id' json' other =>
      cases hlabel
      exact .inr ⟨rfl, rfl, other⟩
  | internal event internal =>
      cases hlabel
      exact internal.elim
  | _ => cases hlabel

/-- What an answer is. -/
theorem ServiceStep.getObject_cases
    (h : ServiceStep rapidjson t (.getObject name id, response) t') :
    t' = t ∧ ∃ text, response = .object text ∧
      ((∃ kind : Kind, name = kind.name ∧ t.Shows id text kind ∧ (¬ t.Has id kind → text = [])) ∨
        (text = [] ∧ ∀ kind : Kind, name ≠ kind.name)) := by
  generalize hlabel : (Event.getObject name id, response) = label at h
  cases h with
  | answered kind id' text shows empty =>
      cases hlabel
      exact ⟨rfl, text, rfl, .inl ⟨kind, rfl, shows, empty⟩⟩
  | nothing name' id' other =>
      cases hlabel
      exact ⟨rfl, [], rfl, .inr ⟨rfl, other⟩⟩
  | internal event internal =>
      cases hlabel
      exact internal.elim
  | _ => cases hlabel

/-! ## What is there -/

/-- Visits are shown under their ids, and only what is shown has waiting changes. -/
structure Ok (t : Service) : Prop where
  id : ∀ id, ∀ visit ∈ t.shown id, visit.id = id
  waiting : ∀ visit ∈ t.waiting, t.shown visit.id ≠ none

/-- The empty service shows nothing. -/
theorem ok_empty : empty.Ok := ⟨by simp [empty], by simp [empty]⟩

/-- A visit is there exactly if it is shown. -/
theorem visits_eq_none_iff (h : t.Ok) : t.visits id = none ↔ t.shown id = none := by
  have hwaiting : t.shown id = none → t.waiting.filter (·.id = id) = [] := by
    intro hnone
    refine List.filter_eq_nil_iff.mpr fun visit hvisit hid => ?_
    have heq : visit.id = id := by simpa using hid
    exact h.waiting visit hvisit (heq ▸ hnone)
  constructor
  · intro hnone
    exact (Option.or_eq_none_iff.mp hnone).2
  · intro hnone
    simp [visits, hwaiting hnone, hnone]

/-- A visit with all its changes has its id. -/
theorem id_of_visits (h : t.Ok) {visit : Visit} (hvisit : t.visits id = some visit) :
    visit.id = id := by
  rcases Option.or_eq_some_iff.mp hvisit with hlast | ⟨-, hshown⟩
  · have hmem := List.mem_of_getLast? hlast
    simpa using (List.mem_filter.mp hmem).2
  · exact h.id id visit hshown

/-- Showing a change does not change the visits with all their changes. -/
theorem visits_publish {visit : Visit} {rest : List Visit} (h : t.waiting = visit :: rest) :
    visits { t with shown := Function.update t.shown visit.id (some visit), waiting := rest } =
      t.visits := by
  funext id
  show (rest.filter (·.id = id)).getLast?.or (Function.update t.shown visit.id (some visit) id) = _
  rw [visits, h]
  by_cases hid : visit.id = id
  · subst hid
    rw [List.filter_cons_of_pos (by simp), Function.update_self]
    cases hrest : rest.filter (fun other => decide (other.id = visit.id)) with
    | nil => rfl
    | cons other others => simp [List.getLast?_cons]
  · rw [List.filter_cons_of_neg (by simpa using hid), Function.update_of_ne (Ne.symm hid)]

/-- An accepted change. -/
theorem visits_change (t : Service) (visit : Visit) :
    visits { t with waiting := t.waiting ++ [visit] } =
      Function.update t.visits visit.id (some visit) := by
  funext id
  show ((t.waiting ++ [visit]).filter (·.id = id)).getLast?.or (t.shown id) = _
  by_cases hid : visit.id = id
  · subst hid
    simp [List.filter_append]
  · simp [List.filter_append, hid, Function.update_of_ne (Ne.symm hid), visits]

/-- A new visit. -/
theorem visits_create (h : t.Ok) {visit : Visit} (hfree : t.shown visit.id = none) :
    visits { t with shown := Function.update t.shown visit.id (some visit) } =
      Function.update t.visits visit.id (some visit) := by
  funext id
  show (t.waiting.filter (·.id = id)).getLast?.or
    (Function.update t.shown visit.id (some visit) id) = _
  by_cases hid : id = visit.id
  · subst hid
    have hnone : t.visits visit.id = none := (visits_eq_none_iff h).mpr hfree
    rw [(Option.or_eq_none_iff.mp hnone).1]
    simp
  · rw [Function.update_of_ne hid, Function.update_of_ne hid]
    rfl

/-- Showing a visit under its id. -/
theorem Ok.update (h : t.Ok) (visit : Visit) :
    (∀ id, ∀ other ∈ Function.update t.shown visit.id (some visit) id, other.id = id) ∧
      ∀ id, t.shown id ≠ none → Function.update t.shown visit.id (some visit) id ≠ none := by
  refine ⟨fun id other hother => ?_, fun id hid => ?_⟩
  · by_cases heq : id = visit.id
    · subst heq
      rw [Function.update_self] at hother
      exact congrArg Visit.id (Option.mem_some_iff.mp hother).symm
    · rw [Function.update_of_ne heq] at hother
      exact h.id id other hother
  · by_cases heq : id = visit.id
    · simp [heq]
    · rwa [Function.update_of_ne heq]

/-- Every step keeps this. -/
theorem ServiceStep.ok {label : Event × Response} (hstep : ServiceStep rapidjson t label t')
    (h : t.Ok) : t'.Ok := by
  cases hstep with
  | created kind json t' creates =>
      cases creates with
      | user => exact ⟨h.id, h.waiting⟩
      | location => exact ⟨h.id, h.waiting⟩
      | visit members visit body describes free =>
          obtain ⟨hid, hkeep⟩ := h.update visit
          exact ⟨hid, fun other hother => hkeep _ (h.waiting other hother)⟩
  | patched kind id json t' patches =>
      cases patches with
      | user => exact ⟨h.id, h.waiting⟩
      | location => exact ⟨h.id, h.waiting⟩
      | visit members visit body valid stored =>
          refine ⟨h.id, fun other hother => ?_⟩
          rcases List.mem_append.mp hother with hold | hnew
          · exact h.waiting other hold
          · obtain rfl := List.mem_singleton.mp hnew
            have hvisits : t.visits id ≠ none := by simp [stored]
            show t.shown visit.id ≠ none
            rw [id_of_visits h stored]
            exact fun hnone => hvisits ((visits_eq_none_iff h).mpr hnone)
  | published visit rest waiting =>
      obtain ⟨hid, hkeep⟩ := h.update visit
      refine ⟨hid, fun other hother => hkeep _ (h.waiting other ?_)⟩
      rw [waiting]
      exact List.mem_cons_of_mem _ hother
  | _ => exact h

/-- An entity with all its changes is there exactly if it is. -/
theorem Patches.has (h : t.Patches rapidjson id json kind t') (ht : t.Ok) : t.Has id kind := by
  cases h with
  | user members user body valid stored => simp [Has, stored]
  | visit members visit body valid stored =>
      show t.shown id ≠ none
      intro hnone
      have hvisits := (visits_eq_none_iff ht).mpr hnone
      rw [stored] at hvisits
      cases hvisits
  | location members location body valid stored => simp [Has, stored]

/-! ## Equal answers -/

/-- There is one text to show. -/
theorem Shows.unique {text text' : Bytes} (h : t.Shows id text kind) (h' : t.Shows id text' kind)
    (hhas : t.Has id kind) : text = text' := by
  cases kind with
  | users =>
      obtain ⟨user, huser⟩ := Option.ne_none_iff_exists'.mp hhas
      exact Except.ok.inj ((h user huser).symm.trans (h' user huser))
  | visits =>
      obtain ⟨visit, hvisit⟩ := Option.ne_none_iff_exists'.mp hhas
      exact (h visit hvisit).symm.trans (h' visit hvisit)
  | locations =>
      obtain ⟨location, hlocation⟩ := Option.ne_none_iff_exists'.mp hhas
      exact Except.ok.inj ((h location hlocation).symm.trans (h' location hlocation))

/-- The answer of a request and what it does are determined. -/
theorem ServiceStep.unique {event : Event} {response' : Response} {t₁ t₂ : Service} (ht : t.Ok)
    (hevent : ¬ event.IsInternal) (h : ServiceStep rapidjson t (event, response) t₁)
    (h' : ServiceStep rapidjson t (event, response') t₂) : response = response' ∧ t₁ = t₂ := by
  cases event with
  | insert name json =>
      rcases h.insert_cases with ⟨kind, rfl, rfl, hcreates⟩ | ⟨rfl, rfl, hrefuses⟩
      · rcases h'.insert_cases with ⟨kind', hkind, rfl, hcreates'⟩ | ⟨rfl, rfl, hrefuses'⟩
        · obtain rfl := Kind.name_injective hkind
          exact ⟨rfl, hcreates.unique hcreates'⟩
        · exact absurd hcreates (hrefuses' kind t₁ rfl)
      · rcases h'.insert_cases with ⟨kind', rfl, rfl, hcreates'⟩ | ⟨rfl, rfl, hrefuses'⟩
        · exact absurd hcreates' (hrefuses kind' t₂ rfl)
        · exact ⟨rfl, rfl⟩
  | update id name json =>
      rcases h.update_cases with ⟨kind, rfl, hcase⟩ | ⟨rfl, rfl, hother⟩
      · rcases h'.update_cases with ⟨kind', hkind, hcase'⟩ | ⟨rfl, rfl, hother'⟩
        · obtain rfl := Kind.name_injective hkind
          rcases hcase with ⟨rfl, hpatches⟩ | ⟨rfl, rfl, hhas, hrefuses⟩ | ⟨rfl, rfl, habsent⟩
          · rcases hcase' with ⟨rfl, hpatches'⟩ | ⟨rfl, -, -, hrefuses'⟩ | ⟨rfl, -, habsent'⟩
            · exact ⟨rfl, hpatches.unique hpatches'⟩
            · exact absurd hpatches (hrefuses' t₁)
            · exact absurd (hpatches.has ht) habsent'
          · rcases hcase' with ⟨rfl, hpatches'⟩ | ⟨rfl, rfl, -, -⟩ | ⟨rfl, -, habsent'⟩
            · exact absurd hpatches' (hrefuses t₂)
            · exact ⟨rfl, rfl⟩
            · exact absurd hhas habsent'
          · rcases hcase' with ⟨rfl, hpatches'⟩ | ⟨rfl, -, hhas', -⟩ | ⟨rfl, rfl, -⟩
            · exact absurd (hpatches'.has ht) habsent
            · exact absurd hhas' habsent
            · exact ⟨rfl, rfl⟩
        · exact absurd rfl (hother' kind)
      · rcases h'.update_cases with ⟨kind', rfl, -⟩ | ⟨rfl, rfl, -⟩
        · exact absurd rfl (hother kind')
        · exact ⟨rfl, rfl⟩
  | getObject name id =>
      obtain ⟨h₁, text, rfl, htext⟩ := h.getObject_cases
      obtain ⟨h₂, text', rfl, htext'⟩ := h'.getObject_cases
      refine ⟨congrArg Response.object ?_, h₁.trans h₂.symm⟩
      rcases htext with ⟨kind, rfl, hshows, hempty⟩ | ⟨rfl, hother⟩
      · rcases htext' with ⟨kind', hkind, hshows', hempty'⟩ | ⟨rfl, hother'⟩
        · obtain rfl := Kind.name_injective hkind
          by_cases hhas : t.Has id kind
          · exact hshows.unique hshows' hhas
          · rw [hempty hhas, hempty' hhas]
        · exact absurd rfl (hother' kind)
      · rcases htext' with ⟨kind', rfl, -⟩ | ⟨rfl, hother'⟩
        · exact absurd rfl (hother kind')
        · rfl
  | _ => exact absurd trivial hevent

/-! ## Up to what is shown -/

/-- The services differ at most in which changes of visits are shown. -/
structure Agrees (t u : Service) : Prop where
  users : t.users = u.users
  locations : t.locations = u.locations
  visits : t.visits = u.visits
  shown : ∀ id, t.shown id = none ↔ u.shown id = none

/-- A service agrees with itself. -/
theorem Agrees.refl (t : Service) : t.Agrees t := ⟨rfl, rfl, rfl, fun _ => .rfl⟩

/-- Agreement goes both ways. -/
theorem Agrees.symm (h : t.Agrees u) : u.Agrees t :=
  ⟨h.users.symm, h.locations.symm, h.visits.symm, fun id => (h.shown id).symm⟩

/-- Services that agree hold the same entities. -/
theorem Agrees.has (h : t.Agrees u) (id : UInt32) (kind : Kind) :
    t.Has id kind ↔ u.Has id kind := by
  cases kind with
  | users => simp [Has, h.users]
  | visits => simp [Has, h.shown]
  | locations => simp [Has, h.locations]

/-- An insertion keeps the agreement. -/
theorem Agrees.creates (h : t.Agrees u) (ht : t.Ok) (hu : u.Ok)
    (hcreates : t.Creates rapidjson json kind t') :
    ∃ u', u.Creates rapidjson json kind u' ∧ t'.Agrees u' := by
  cases hcreates with
  | user members user body describes free =>
      refine ⟨_, .user members user body describes (h.users ▸ free), ?_⟩
      exact ⟨by rw [h.users], h.locations, h.visits, h.shown⟩
  | visit members visit body describes free =>
      have hfree : u.shown visit.id = none := (h.shown visit.id).mp free
      refine ⟨_, .visit members visit body describes hfree, ?_⟩
      refine ⟨h.users, h.locations, ?_, fun id => ?_⟩
      · rw [visits_create ht free, visits_create hu hfree, h.visits]
      · show Function.update t.shown visit.id _ id = none ↔
          Function.update u.shown visit.id _ id = none
        rw [Function.update_apply, Function.update_apply]
        split_ifs
        · simp
        · exact h.shown id
  | location members location body describes free =>
      refine ⟨_, .location members location body describes (h.locations ▸ free), ?_⟩
      exact ⟨h.users, by rw [h.locations], h.visits, h.shown⟩

/-- An update keeps the agreement. -/
theorem Agrees.patches (h : t.Agrees u) (hpatches : t.Patches rapidjson id json kind t') :
    ∃ u', u.Patches rapidjson id json kind u' ∧ t'.Agrees u' := by
  cases hpatches with
  | user members user body valid stored =>
      refine ⟨_, .user members user body valid (h.users ▸ stored), ?_⟩
      exact ⟨by rw [h.users], h.locations, h.visits, h.shown⟩
  | visit members visit body valid stored =>
      refine ⟨_, .visit members visit body valid (h.visits ▸ stored), ?_⟩
      refine ⟨h.users, h.locations, ?_, h.shown⟩
      rw [visits_change, visits_change, h.visits]
  | location members location body valid stored =>
      refine ⟨_, .location members location body valid (h.locations ▸ stored), ?_⟩
      exact ⟨h.users, by rw [h.locations], h.visits, h.shown⟩

/-- The requests that do not look at what is shown. -/
def IsSettled : Event → Bool
  | .insert _ _ | .update _ _ _ => true
  | .getObject name _ => name ≠ str "visits"
  | _ => false

/-- Such a request with its answer. -/
def settled (label : Event × Response) : Option (Event × Response) :=
  if IsSettled label.1 then some label else none

/-- What is left out are the other requests and events. -/
theorem settled_eq_none {label : Event × Response} :
    settled label = none ↔ IsSettled label.1 = false := by
  simp [settled]

/-- The requests that are left are those that do not look at what is shown. -/
theorem map_settled (labels : List (Event × Response)) :
    (labels.filterMap settled).map Prod.fst = (labels.map Prod.fst).filter IsSettled := by
  induction labels with
  | nil => rfl
  | cons label labels ih =>
      cases hsettled : IsSettled label.1 with
      | false => simp [settled, hsettled, ih]
      | true => simp [settled, hsettled, ih]

/-- What the worker does and a GET of a visit do not lead to a service that differs. -/
theorem Agrees.silent {label : Event × Response} (h : t.Agrees u) (ht : t.Ok)
    (hstep : ServiceStep rapidjson t label t') (hlabel : settled label = none) : t'.Agrees u := by
  cases hstep with
  | published visit rest waiting =>
      refine ⟨h.users, h.locations, (visits_publish waiting).trans h.visits, fun id => ?_⟩
      show Function.update t.shown visit.id (some visit) id = none ↔ u.shown id = none
      rw [← h.shown id, Function.update_apply]
      split_ifs with hid
      · have hshown := ht.waiting visit (by simp [waiting])
        simp [hid, hshown]
      · rfl
  | internal event internal => exact h
  | answered => exact h
  | nothing => exact h
  | _ => cases hlabel

/-- A request has the same answer. -/
theorem Agrees.step {label : Event × Response} (h : t.Agrees u) (ht : t.Ok) (hu : u.Ok)
    (hstep : ServiceStep rapidjson t label t') (hlabel : settled label ≠ none) :
    ∃ u', ServiceStep rapidjson u label u' ∧ t'.Agrees u' := by
  cases hstep with
  | created kind json t' creates =>
      obtain ⟨u', hcreates, hu'⟩ := h.creates ht hu creates
      exact ⟨u', .created kind json u' hcreates, hu'⟩
  | refused name json refuses =>
      refine ⟨u, .refused name json fun kind u' hname hcreates => ?_, h⟩
      obtain ⟨t', hcreates', -⟩ := h.symm.creates hu ht hcreates
      exact refuses kind t' hname hcreates'
  | patched kind id json t' patches =>
      obtain ⟨u', hpatches, hu'⟩ := h.patches patches
      exact ⟨u', .patched kind id json u' hpatches, hu'⟩
  | invalid kind id json has refuses =>
      refine ⟨u, .invalid kind id json ((h.has id kind).mp has) fun u' hpatches => ?_, h⟩
      obtain ⟨t', hpatches', -⟩ := h.symm.patches hpatches
      exact refuses t' hpatches'
  | missing kind id json absent =>
      exact ⟨u, .missing kind id json fun hhas => absent ((h.has id kind).mpr hhas), h⟩
  | unknown name id json other => exact ⟨u, .unknown name id json other, h⟩
  | answered kind id text shows empty =>
      have hempty : ¬ u.Has id kind → text = [] := by
        rw [← h.has id kind]
        exact empty
      refine ⟨u, .answered kind id text ?_ hempty, h⟩
      cases kind with
      | users =>
          show ∀ user ∈ u.users id, user.serializateBuffer = .ok text
          rw [← h.users]
          exact shows
      | visits =>
          have hnone : IsSettled (.getObject Kind.visits.name id) = false := by
            simp [IsSettled, Kind.name]
          exact absurd (settled_eq_none.mpr hnone) hlabel
      | locations =>
          show ∀ location ∈ u.locations id, location.serializateBuffer = .ok text
          rw [← h.locations]
          exact shows
  | nothing name id other => exact ⟨u, .nothing name id other, h⟩
  | published => exact absurd rfl hlabel
  | internal event internal =>
      cases event with
      | insert name json => exact internal.elim
      | update id name json => exact internal.elim
      | getObject name id => exact internal.elim
      | _ => exact absurd rfl hlabel

/-- What is left is a request with its answer, as it was. -/
theorem settled_eq_some {label label' : Event × Response} (h : settled label = some label') :
    label' = label ∧ ¬ label.1.IsInternal := by
  unfold settled at h
  split_ifs at h with hsettled
  refine ⟨(Option.some.inj h).symm, fun hinternal => ?_⟩
  obtain ⟨event, response⟩ := label
  cases event with
  | insert name json => exact hinternal
  | update id name json => exact hinternal
  | getObject name id => exact hinternal
  | _ => cases hsettled

/-- The requests, in states where they are answered in one way. -/
abbrev Requests (rapidjson : Bytes → Option Value) :
    Service → Event × Response → Service → Prop :=
  Guarded (ServiceStep rapidjson) fun t label => t.Ok ∧ ¬ label.1.IsInternal

/-- A run of the service can be followed by the requests alone. -/
theorem run_settled {labels : List (Event × Response)}
    (h : Run (ServiceStep rapidjson) empty labels t) :
    ∃ u, Run (Requests rapidjson) empty (labels.filterMap settled) u ∧ t.Agrees u := by
  have hinit : empty.Agrees empty ∧ empty.Ok ∧ empty.Ok := ⟨.refl _, ok_empty, ok_empty⟩
  obtain ⟨u, hrun, hagrees, -, -⟩ : ∃ u, Run (Requests rapidjson) empty
      (labels.filterMap settled) u ∧ (t.Agrees u ∧ t.Ok ∧ u.Ok) := by
    refine h.simulate_silent settled (fun t u => t.Agrees u ∧ t.Ok ∧ u.Ok) hinit ?_ ?_
    · intro t label t' u hstep hinv hlabel
      exact ⟨hinv.1.silent hinv.2.1 hstep hlabel, hstep.ok hinv.2.1, hinv.2.2⟩
    · intro t label t' u label' hstep hinv hlabel
      obtain ⟨hagrees, ht, hu⟩ := hinv
      obtain ⟨u', hstep', hagrees'⟩ := hagrees.step ht hu hstep (by simp [hlabel])
      obtain ⟨rfl, hinternal⟩ := settled_eq_some hlabel
      exact ⟨u', ⟨hstep', hu, hinternal⟩, hagrees', hstep.ok ht, hstep'.ok hu⟩
  exact ⟨u, hrun, hagrees⟩

/-- A request has one answer and one result. -/
theorem requests_unique {s t t' : Service} {e e' : Event × Response}
    (h : Requests rapidjson s e t) (h' : Requests rapidjson s e' t') (hfst : e.1 = e'.1) :
    e = e' ∧ t = t' := by
  obtain ⟨event, response⟩ := e
  obtain ⟨event', response'⟩ := e'
  obtain rfl : event = event' := hfst
  obtain ⟨hstep, hok, hinternal⟩ := h
  obtain ⟨rfl, rfl⟩ := hstep.unique hok hinternal h'.1
  exact ⟨rfl, rfl⟩

/-- The same requests have the same answers. -/
theorem answers_unique {labels labels' : List (Event × Response)}
    (h : Run (ServiceStep rapidjson) empty labels t)
    (h' : Run (ServiceStep rapidjson) empty labels' t')
    (hrequests : (labels.map Prod.fst).filter IsSettled =
      (labels'.map Prod.fst).filter IsSettled) :
    labels.filterMap settled = labels'.filterMap settled ∧ t.Agrees t' := by
  obtain ⟨u, hrun, hu⟩ := run_settled h
  obtain ⟨u', hrun', hu'⟩ := run_settled h'
  obtain ⟨hlabels, rfl⟩ : labels.filterMap settled = labels'.filterMap settled ∧ u = u' := by
    refine hrun.unique Prod.fst ?_ hrun' ?_
    · exact fun _ _ _ _ _ => requests_unique
    · rw [map_settled, map_settled, hrequests]
  exact ⟨hlabels, hu.users.trans hu'.users.symm, hu.locations.trans hu'.locations.symm,
    hu.visits.trans hu'.visits.symm, fun id => (hu.shown id).trans (hu'.shown id).symm⟩

end Service

namespace System

variable {rapidjson : Bytes → Option Value} {s s' : System}

/-- The requests of a run, without the GETs of visits. -/
def requests (labels : List (Event × Report)) : List Event :=
  (labels.map Prod.fst).filter Service.IsSettled

/-- These requests with their answers. -/
def answers (labels : List (Event × Report)) : List (Event × Response) :=
  labels.filterMap fun e => Service.settled (e.1, e.2.1)

/-- The answers of a run are those of the service. -/
theorem answers_eq (labels : List (Event × Report)) :
    answers labels = (labels.map fun e => (e.1, e.2.1)).filterMap Service.settled := by
  rw [List.filterMap_map]
  rfl

/-- What the worker does when makes no difference: two runs with the same requests, whose updates
are all up to date, give the same answers and store the same users and locations; once no task
waits in either, they store the same visits. Only the texts of visits may differ on the way. -/
theorem schedule_independent {tm tm' : Tm} {labels labels' : List (Event × Report)}
    (h : Run (Guarded (Steps rapidjson) fun s label => UpToDate rapidjson s label.1) (init tm)
      labels s)
    (h' : Run (Guarded (Steps rapidjson) fun s label => UpToDate rapidjson s label.1) (init tm')
      labels' s')
    (hrequests : requests labels = requests labels') :
    answers labels = answers labels' ∧
      (∀ id, (s.base.users.get id).map User.fields = (s'.base.users.get id).map User.fields) ∧
      (∀ id, (s.base.locations.get id).map Location.fields =
        (s'.base.locations.get id).map Location.fields) ∧
      (s.pending = [] → s'.pending = [] → s.base.visits.get = s'.base.visits.get) := by
  obtain ⟨t, hservice, ht⟩ := run_service h
  obtain ⟨t', hservice', ht'⟩ := run_service h'
  obtain ⟨hanswers, hagrees⟩ := Service.answers_unique hservice hservice' (by
    rw [List.map_map, List.map_map]
    exact hrequests)
  rw [answers_eq, answers_eq]
  refine ⟨hanswers, fun id => ?_, fun id => ?_, fun hpending hpending' => ?_⟩
  · have husers := congrFun hagrees.users id
    rwa [ht.users, ht'.users] at husers
  · have hlocations := congrFun hagrees.locations id
    rwa [ht.locations, ht'.locations] at hlocations
  · rw [← ht.visits_of_drained hpending, ← ht'.visits_of_drained hpending', hagrees.visits]

/-- The first run shows each change at once. The second one shows none before the last request,
and answers a GET of the visit with its old text. -/
theorem schedule_independent_late : ∃ (labels labels' : List (Event × Report)) (s s' : System),
    (s.base.visits.get 1 = some ⟨1, 2, 3, 4, 3⟩ ∧
      labels'.map (fun e => decide (e.2.1 = .object (Visit.serializateBuffer ⟨1, 2, 3, 4, 5⟩))) =
        [false, false, false, false, true, false, false, false, false]) ∧
      answers labels = answers labels' ∧ s.base.visits.get = s'.base.visits.get := by
  have hrun : (execGuarded (step parse) (UpToDate parse) (init ⟨117, 7, 15, 0, 0, 0⟩)
      [insertSample, .push 0, .swapVisits, .executeVisit,
        .update 1 (str "visits") (printObject [(fMark, .int 2)]), .swapVisits, .executeVisit,
        .update 1 (str "visits") (printObject [(fMark, .int 3)]), .swapVisits,
        .executeVisit]).map (fun (_, s) => (s.pending, s.base.visits.get 1)) =
      some ([], some ⟨1, 2, 3, 4, 3⟩) := by
    decide +kernel
  have hrun' : (execGuarded (step parse) (UpToDate parse) (init ⟨117, 7, 15, 0, 0, 0⟩)
      [insertSample, .push 0, .update 1 (str "visits") (printObject [(fMark, .int 2)]),
        .update 1 (str "visits") (printObject [(fMark, .int 3)]), .getObject (str "visits") 1,
        .swapVisits, .executeVisit, .executeVisit, .executeVisit]).map (fun (labels, s) =>
          (s.pending, labels.map fun e =>
            decide (e.2.1 = .object (Visit.serializateBuffer ⟨1, 2, 3, 4, 5⟩)))) =
      some ([], [false, false, false, false, true, false, false, false, false]) := by
    decide +kernel
  obtain ⟨⟨labels, s⟩, hexec, hs⟩ := Option.map_eq_some_iff.mp hrun
  obtain ⟨⟨labels', s'⟩, hexec', hs'⟩ := Option.map_eq_some_iff.mp hrun'
  obtain ⟨hpending, hvisit⟩ := Prod.mk.inj hs
  obtain ⟨hpending', hlabels'⟩ := Prod.mk.inj hs'
  have hrequests : requests labels = requests labels' := by
    rw [requests, requests, execGuarded_inputs hexec, execGuarded_inputs hexec']
    rfl
  obtain ⟨hanswers, -, -, hvisits⟩ := schedule_independent (execGuarded_run hexec)
    (execGuarded_run hexec') hrequests
  exact ⟨labels, labels', s, s', ⟨hvisit, hlabels'⟩, hanswers, hvisits hpending hpending'⟩

end System

end HighloadCup
