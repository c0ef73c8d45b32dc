import Mic3.Versions

/-! `check_deployment`, the gate in front of a delivery: what it lets through, and what a series of deliveries that
each passed it can do to a service. -/
namespace Mic3

def annotation : String := "delivery.mic3.io/"

/-- `doc['metadata'].get('annotations', {})`. -/
def annotationsOf (doc : Json) : Except ScriptError Json := do
  (← doc.item "metadata").getD "annotations" (.obj [])

/-- An entry of `{c['name']: c['image'] for c in ..}`. -/
def containerImage (container : Json) : Except ScriptError (Json × Json) := do
  let name ← container.item "name"
  let image ← container.item "image"
  if name.hashable then return (name, image) else throw .typeError

/-- The images of a deployment's containers, in the order of the document. -/
def liveImages (doc : Json) : Except ScriptError (List (Json × Json)) := do
  let template ← (← doc.item "spec").item "template"
  let containers ← (← template.item "spec").item "containers"
  (← containers.iterate).mapM containerImage

/-- `images.get(role)`: the last container of a name counts. -/
def imageOf (images : List (Json × Json)) (role : String) : Json :=
  ((images.reverse.find? fun e => e.1 = .str role).map Prod.snd).getD .null

/-- An execution service runs one replica, unless it is paused or scaled. -/
def checkReplicas (doc : Json) (role : String) : Except ScriptError Unit :=
  if role = "api" then .ok ()
  else do
    let replicas ← (← doc.item "spec").getD "replicas" .null
    refuse (!Json.equal replicas (.int 1)) ("Execution service is paused or scaled unexpectedly: " ++ role)

def rolloutCounters : List String := ["updatedReplicas", "readyReplicas", "availableReplicas", "replicas"]

/-- The check that follows a delivery. -/
def checkRollout (doc current : Json) (images : List (Json × Json)) (role targetVersion targetImage : String) :
    Except ScriptError Unit := do
  let status ← doc.getD "status" (.obj [])
  let replicas ← (← doc.item "spec").item "replicas"
  refuse (current ≠ .str targetVersion || imageOf images role ≠ .str targetImage) ("Incomplete rollout: " ++ role)
  let observed ← status.getD "observedGeneration" (.int 0)
  let generation ← (← doc.item "metadata").item "generation"
  refuse (← observed.lessThan generation) ("Incomplete rollout: " ++ role)
  refuse (← rolloutCounters.anyM fun key => do return !Json.equal (← status.getD key (.int 0)) replicas)
    ("Incomplete rollout: " ++ role)

def checkDeployment (doc : Json) (role targetVersion targetImage targetCommit : String) (deployed : Bool) :
    Except ScriptError Unit := do
  let annotations ← annotationsOf doc
  let current ← annotations.getD ( annotation ++ "version") .null
  let live ← version current
  let target ← version (.str targetVersion)
  refuse (target < live) ("Older releases require manual recovery: " ++ role)
  let images ← liveImages doc
  let commit ← annotations.getD ( annotation ++ "commit") .null
  refuse (current = .str targetVersion && (imageOf images role ≠ .str targetImage || commit ≠ .str targetCommit))
    ("Same version has different image/source: " ++ role)
  checkReplicas doc role
  if deployed then checkRollout doc current images role targetVersion targetImage else .ok ()

/-- What the release annotation of a document says. -/
def releaseAnnotation (doc : Json) (name : String) : Except ScriptError Json := do
  (← annotationsOf doc).getD ( annotation ++ name) .null

/-- The image that a document runs for a role. -/
def liveImage (doc : Json) (role : String) : Except ScriptError Json := do
  return imageOf (← liveImages doc) role

/-- What a delivery installs. -/
structure Target where
  version : String
  image : String
  commit : String

/-- The numbers of a target's version. -/
def Target.Numbers (target : Target) (t : List ℕ) : Prop := Mic3.version (.str target.version) = .ok t

/-- A document that an installation may leave: whatever else it says, its identity is the target's. -/
structure Installed (role : String) (target : Target) (doc : Json) : Prop where
  version : releaseAnnotation doc "version" = .ok (.str target.version)
  image : liveImage doc role = .ok (.str target.image)
  commit : releaseAnnotation doc "commit" = .ok (.str target.commit)

/-- A series of deliveries of a service, each let through by the gate and then installed. -/
inductive Deliveries (role : String) : Json → List Target → Prop
  | done (doc : Json) : Deliveries role doc []
  | step {doc doc' : Json} {target : Target} {targets : List Target}
      (passes : checkDeployment doc role target.version target.image target.commit false = .ok ())
      (installed : Installed role target doc') (rest : Deliveries role doc' targets) :
      Deliveries role doc (target :: targets)

/-- Where no test of a loop succeeds, every one was made and failed. -/
theorem anyM_false {α : Type} {f : α → Except ScriptError Bool} {l : List α} (h : l.anyM f = .ok false) :
    ∀ a ∈ l, f a = .ok false := by
  induction l with
  | nil => exact List.forall_mem_nil _
  | cons a l ih =>
    rw [List.anyM_cons] at h
    obtain ⟨b, hb, h⟩ := bind_eq_ok.mp h
    cases b with
    | true => cases (Except.ok.inj h)
    | false => exact List.forall_mem_cons.mpr ⟨hb, ih h⟩

section Gate
variable {doc : Json} {role targetVersion targetImage targetCommit : String} {deployed : Bool} {live : List ℕ}
  {target target' : Target} {targets : List Target}

/-- What a document that passes the gate says. -/
theorem checkDeployment_eq_ok (h : checkDeployment doc role targetVersion targetImage targetCommit deployed = .ok ()) :
    ∃ current live target image commit, releaseAnnotation doc "version" = .ok current ∧ version current = .ok live ∧
      version (.str targetVersion) = .ok target ∧ live ≤ target ∧ liveImage doc role = .ok image ∧
      releaseAnnotation doc "commit" = .ok commit ∧
      (current = .str targetVersion → image = .str targetImage ∧ commit = .str targetCommit) := by
  simp only [checkDeployment, bind_eq_ok, refuse_eq_ok] at h
  obtain ⟨annotations, hannotations, current, hcurrent, live, hlive, target, htarget, _, horder, images, himages,
    commit, hcommit, _, hsame, -⟩ := h
  refine ⟨current, live, target, imageOf images role, commit, bind_eq_ok.mpr ⟨_, hannotations, hcurrent⟩, hlive, htarget,
    not_lt.mp (of_decide_eq_false horder), bind_eq_ok.mpr ⟨_, himages, rfl⟩, bind_eq_ok.mpr ⟨_, hannotations, hcommit⟩,
    fun heq => ?_⟩
  simpa [heq] using hsame

/-- What an installed document lets through next: no lower version, and the same version only with what it has. -/
theorem Installed.next (hi : Installed role target doc)
    (h : checkDeployment doc role target'.version target'.image target'.commit false = .ok ()) :
    ∃ t t', target.Numbers t ∧ target'.Numbers t' ∧ t ≤ t' ∧
      (target.version = target'.version → target.image = target'.image ∧ target.commit = target'.commit) := by
  obtain ⟨current, live, t', image, commit, hcurrent, hlive, ht', hle, himage, hcommit, hsame⟩ := checkDeployment_eq_ok h
  obtain rfl := Except.ok.inj (hi.version.symm.trans hcurrent)
  obtain rfl := Except.ok.inj (hi.image.symm.trans himage)
  obtain rfl := Except.ok.inj (hi.commit.symm.trans hcommit)
  refine ⟨live, t', hlive, ht', hle, fun heq => ?_⟩
  obtain ⟨hi, hc⟩ := hsame (congrArg Json.str heq)
  exact ⟨Json.str.inj hi, Json.str.inj hc⟩

/-- How a delivery relates to every later one. -/
structure Target.Before (target target' : Target) : Prop where
  order : ∃ t t', target.Numbers t ∧ target'.Numbers t' ∧ t ≤ t'
  same : target.version = target'.version → target.image = target'.image ∧ target.commit = target'.commit

/-- Where the outer versions are the same, the one in between is squeezed. -/
theorem Target.Before.trans {next : Target} (h : target.Before next) (h' : next.Before target') :
    target.Before target' := by
  obtain ⟨t, middle, ht, hmiddle, hle⟩ := h.order
  obtain ⟨middle', t', hmiddle', ht', hle'⟩ := h'.order
  obtain rfl := Except.ok.inj (hmiddle.symm.trans hmiddle')
  refine ⟨⟨t, t', ht, ht', hle.trans hle'⟩, fun heq => ?_⟩
  have hnumbers : t = t' := by
    rw [Target.Numbers, heq] at ht
    exact Except.ok.inj (ht.symm.trans ht')
  obtain rfl : t = middle := le_antisymm hle (hnumbers ▸ hle')
  have hversion : target.version = next.version := Json.str.inj (version_inj ht hmiddle)
  obtain ⟨himage, hcommit⟩ := h.same hversion
  obtain ⟨himage', hcommit'⟩ := h'.same (hversion.symm.trans heq)
  exact ⟨himage.trans himage', hcommit.trans hcommit'⟩

/-- From an installed document on, every delivery relates to every later one. -/
theorem Deliveries.pairwise (h : Deliveries role doc targets) (hi : Installed role target doc) :
    (target :: targets).Pairwise Target.Before := by
  induction h generalizing target with
  | done doc => exact List.pairwise_singleton _ _
  | @step doc doc' next targets passes installed rest ih =>
    obtain ⟨t, t', ht, ht', hle, hsame⟩ := hi.next passes
    have hfirst : target.Before next := ⟨⟨t, t', ht, ht', hle⟩, hsame⟩
    have hpairs := ih installed
    refine List.pairwise_cons.mpr ⟨List.forall_mem_cons.mpr ⟨hfirst, fun d hd => ?_⟩, hpairs⟩
    exact hfirst.trans (List.rel_of_pairwise_cons hpairs hd)

/-- What a document says whose rollout is complete. -/
theorem checkRollout_eq_ok {current : Json} {images : List (Json × Json)}
    (h : checkRollout doc current images role targetVersion targetImage = .ok ()) :
    current = .str targetVersion ∧ imageOf images role = .str targetImage ∧
    ∃ status replicas observed generation, doc.getD "status" (.obj []) = .ok status ∧
      (doc.item "spec" >>= fun spec => spec.item "replicas") = .ok replicas ∧
      status.getD "observedGeneration" (.int 0) = .ok observed ∧
      (doc.item "metadata" >>= fun metadata => metadata.item "generation") = .ok generation ∧
      observed.lessThan generation = .ok false ∧
      ∀ key ∈ rolloutCounters, ∃ counter, status.getD key (.int 0) = .ok counter ∧
        counter.equal replicas = true := by
  simp only [checkRollout, bind_eq_ok, refuse_eq_ok] at h
  obtain ⟨status, hstatus, spec, hspec, replicas, hreplicas, _, hidentity, observed, hobserved, metadata, hmetadata,
    generation, hgeneration, less, hless, _, rfl, some, hsome, rfl⟩ := h
  rw [Bool.or_eq_false_iff, decide_eq_false_iff_not, decide_eq_false_iff_not, not_not, not_not] at hidentity
  refine ⟨hidentity.1, hidentity.2, status, replicas, observed, generation, hstatus, bind_eq_ok.mpr ⟨_, hspec, hreplicas⟩,
    hobserved, bind_eq_ok.mpr ⟨_, hmetadata, hgeneration⟩, hless, fun key hkey => ?_⟩
  obtain ⟨counter, hcounter, hequal⟩ := bind_eq_ok.mp (anyM_false hsome key hkey)
  exact ⟨counter, hcounter, Bool.not_eq_eq_eq_not.mp (Except.ok.inj hequal)⟩

end Gate

/-- The gate in front of deliveries. Versions are the dotted triples of decimal numbers without leading zeros, one
text each, and compare as numbers. In a series of deliveries that each passed the gate, whatever the installed
documents say besides, no version is below an earlier one or below the one that was live, and deliveries of one
version install one image of one commit. After a delivery the gate opens for a document of the target's version and
image only, observed at no older generation than it has, with every counter of the rollout at the requested replicas. -/
theorem delivery_gate :
    ((∀ v t, version v = .ok t ↔ ∃ a b c : ℕ, v = .str (dottedText a b c) ∧ t = [a, b, c] ∧
        (toString a).length ≤ 4300 ∧ (toString b).length ≤ 4300 ∧ (toString c).length ≤ 4300) ∧
      (∀ v v' t, version v = .ok t → version v' = .ok t → v = v') ∧
      ∀ a b c a' b' c' : ℕ, [a, b, c] < [a', b', c'] ↔ a < a' ∨ a = a' ∧ (b < b' ∨ b = b' ∧ c < c')) ∧
    (∀ role doc targets, Deliveries role doc targets →
      targets.Pairwise (fun target target' => (∃ t t', target.Numbers t ∧ target'.Numbers t' ∧ t ≤ t') ∧
        (target.version = target'.version → target.image = target'.image ∧ target.commit = target'.commit)) ∧
      ∀ target ∈ targets, ∃ current live t, releaseAnnotation doc "version" = .ok current ∧
        version current = .ok live ∧ target.Numbers t ∧ live ≤ t) ∧
    ∀ doc role targetVersion targetImage targetCommit,
      checkDeployment doc role targetVersion targetImage targetCommit true = .ok () →
      releaseAnnotation doc "version" = .ok (.str targetVersion) ∧ liveImage doc role = .ok (.str targetImage) ∧
      ∃ status replicas observed generation, doc.getD "status" (.obj []) = .ok status ∧
        (doc.item "spec" >>= fun spec => spec.item "replicas") = .ok replicas ∧
        status.getD "observedGeneration" (.int 0) = .ok observed ∧
        (doc.item "metadata" >>= fun metadata => metadata.item "generation") = .ok generation ∧
        observed.lessThan generation = .ok false ∧
        (∀ o g : ℤ, observed = .int o → generation = .int g → g ≤ o) ∧
        ∀ key ∈ rolloutCounters, ∃ counter, status.getD key (.int 0) = .ok counter ∧
          counter.equal replicas = true := by
  refine ⟨⟨fun _ _ => version_eq_ok, fun _ _ _ => version_inj, fun _ _ _ _ _ _ => triple_lt⟩, ?_, ?_⟩
  · intro role doc targets h
    cases h with
    | done => exact ⟨List.Pairwise.nil, List.forall_mem_nil _⟩
    | @step _ doc' target targets passes installed rest =>
      have hpairs := rest.pairwise installed
      obtain ⟨current, live, t, image, commit, hcurrent, hlive, ht, hle, -⟩ := checkDeployment_eq_ok passes
      refine ⟨hpairs.imp fun h => ⟨h.order, h.same⟩, List.forall_mem_cons.mpr ⟨?_, fun d hd => ?_⟩⟩
      · exact ⟨current, live, t, hcurrent, hlive, ht, hle⟩
      · obtain ⟨x, y, hx, hy, hxy⟩ := (List.rel_of_pairwise_cons hpairs hd).order
        obtain rfl : t = x := Except.ok.inj (Eq.trans (Eq.symm ht) hx)
        exact ⟨current, live, y, hcurrent, hlive, hy, hle.trans hxy⟩
  · intro doc role targetVersion targetImage targetCommit h
    simp only [checkDeployment, bind_eq_ok, if_true] at h
    obtain ⟨annotations, hannotations, current, hcurrent, live, -, _, -, _, -, images, himages, commit, -, _, -, _, -,
      hrollout⟩ := h
    obtain ⟨rfl, himage, status, replicas, observed, generation, hstatus, hreplicas, hobserved, hgeneration, hless,
      hcounters⟩ := checkRollout_eq_ok hrollout
    refine ⟨bind_eq_ok.mpr ⟨_, hannotations, hcurrent⟩, bind_eq_ok.mpr ⟨_, himages, congrArg _ himage⟩, status, replicas,
      observed, generation, hstatus, hreplicas, hobserved, hgeneration, hless, ?_, hcounters⟩
    rintro o g rfl rfl
    rw [Json.lessThan_int] at hless
    exact not_lt.mp (of_decide_eq_false (Except.ok.inj hless))

namespace Demo

/-- A deployment of one worker, rolled out. -/
def deployment (target : Target) : Json := .obj [
  ("metadata", .obj [("generation", .int 3), ("annotations", .obj [
    ("delivery.mic3.io/version", .str target.version), ("delivery.mic3.io/commit", .str target.commit)])]),
  ("spec", .obj [("replicas", .int 1), ("template", .obj [("spec", .obj [("containers", .arr [
    .obj [("name", .str "worker"), ("image", .str target.image)]])])])]),
  ("status", .obj [("observedGeneration", .int 3), ("updatedReplicas", .int 1), ("readyReplicas", .int 1),
    ("availableReplicas", .int 1), ("replicas", .int 1)])]

def first : Target := ⟨"0.1.9", "example.test/worker@sha256:a", "c"⟩
def second : Target := ⟨"0.1.10", "example.test/worker@sha256:b", "d"⟩

theorem installed (target : Target) : Installed "worker" target (deployment target) := ⟨rfl, rfl, rfl⟩

/-- A retry of the live version, then the next one. -/
theorem deliveries : Deliveries "worker" (deployment first) [first, second] := by
  have hlast : Deliveries "worker" (deployment second) [] := .done _
  have hsecond : Deliveries "worker" (deployment first) [second] := .step (by rfl) (installed second) hlast
  exact .step (by rfl) (installed first) hsecond

end Demo

theorem delivery_gate_demo : (∃ t t', Demo.first.Numbers t ∧ Demo.second.Numbers t' ∧ t ≤ t') ∧
    releaseAnnotation (Demo.deployment Demo.second) "version" = .ok (.str "0.1.10") := by
  have hpairs := (delivery_gate.2.1 _ _ _ Demo.deliveries).1
  have hdeployed : checkDeployment (Demo.deployment Demo.second) "worker" Demo.second.version Demo.second.image
      Demo.second.commit true = .ok () := by rfl
  exact ⟨(List.rel_of_pairwise_cons hpairs (List.mem_singleton_self _)).1, (delivery_gate.2.2 _ _ _ _ _ hdeployed).1⟩

end Mic3
