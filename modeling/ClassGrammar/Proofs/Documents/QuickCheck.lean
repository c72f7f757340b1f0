import ClassGrammar.Proofs.Documents.TagBytes
import ClassGrammar.Transform

/-! The quick check of a document against its reader. A model in the tree stands under a tag that
some event stated, and the check finds the name of this tag in the bytes. -/
namespace ClassGrammar

namespace Node

variable {T : String → Prop} {n : Node}

/-- Whether the tags of children are of a kind, in a node and in all nodes below it. -/
def TagsIn (T : String → Prop) (n : Node) : Prop :=
  ∀ m ∈ n.preorder, ∀ tag, m.children tag ≠ [] → T tag

theorem tagsIn_iff : n.TagsIn T ↔
    (∀ tag, n.children tag ≠ [] → T tag) ∧ ∀ c ∈ n.childNodes, c.TagsIn T :=
  forall_preorder_iff

namespace TagsIn

theorem empty : Node.empty.TagsIn T :=
  tagsIn_iff.mpr ⟨fun _ h => absurd rfl h, fun _ hc => absurd hc List.not_mem_nil⟩

theorem put (h : n.TagsIn T) {e : Entry} (hkey : e.nodes ≠ [] → T e.key)
    (he : ∀ c ∈ e.nodes, c.TagsIn T) : (n.put e).TagsIn T := by
  refine forall_preorder_put h (fun tag htag => ?_) he
  rw [children_put] at htag
  split at htag
  next hsame => exact hsame ▸ hkey htag
  next => exact (tagsIn_iff.mp h).1 tag htag

theorem setAttr (h : n.TagsIn T) (name value : String) : (n.setAttr name value).TagsIn T :=
  h.put (fun hne => absurd rfl hne) (by simp [Entry.nodes])

theorem pushChild (h : n.TagsIn T) {tag : String} (htag : T tag) {child : Node}
    (hc : child.TagsIn T) : (n.pushChild tag child).TagsIn T := by
  refine h.put (fun _ => ?_) (forall_preorder_pushed h hc)
  rwa [key_pushed]

theorem of_child? (h : n.TagsIn T) {tag : String} {c : Node} (hc : n.child? tag = some c) :
    T tag ∧ c.TagsIn T := by
  have hmem : c ∈ n.children tag := List.mem_of_mem_head? hc
  exact ⟨(tagsIn_iff.mp h).1 tag (List.ne_nil_of_mem hmem), forall_preorder_of_mem_children h hmem⟩

end TagsIn
end Node

namespace Document

open Markup

/-- Each tag in the tree of a document is that of an event. -/
theorem tagsIn_of_ofEvents {T : String → Prop} {events : List Event} {d : Document}
    (htags : ∀ e ∈ events, ∀ tag ∈ e.tag?, T tag) (h : ofEvents events = .ok d) :
    d.root.TagsIn T := by
  have hnode (attributes : List (String × String)) : (Open.nodeOf attributes).TagsIn T :=
    Open.nodeOf_induction attributes .empty fun _ name value hn => hn.setAttr name value
  have hstart : Open.All (Node.TagsIn T) T {} := ⟨.empty, by simp⟩
  exact (hstart.run hnode (fun n tag c hn htag hc => hn.pushChild htag hc) htags
    (run_of_ofEvents h)).1

/-- A model stands under its own tag, whether or not it has a wrapper. -/
theorem tag_of_model {T : String → Prop} {d : Document} {m : Node} (hd : d.root.TagsIn T)
    (h : d.model = .ok m) : T "uml:Model" := by
  unfold model at h
  split at h
  next m' hm => exact (hd.of_child? hm).1
  next =>
    -- In a wrapper the tag stands one level below.
    split at h
    next m' hm =>
      obtain ⟨wrapper, hwrapper, hm⟩ := Option.bind_eq_some_iff.mp hm
      exact ((hd.of_child? hwrapper).2.of_child? hm).1
    next => cases h

theorem check_of_infix {bytes : Bytes} {text : String} (htext : Text.decodeUtf8 bytes = .ok text)
    (h : ascii "uml:Model" <:+: bytes) : check bytes = .ok () := by
  unfold check
  rw [htext]
  exact if_pos (.inl (find?_isSome_iff.mpr h))

/-- Events that are named in the bytes give a model only if its tag is written there. -/
theorem check_of_events {bytes : Bytes} {text : String} (htext : Text.decodeUtf8 bytes = .ok text)
    {events : List Event} (hnamed : ∀ e ∈ events, e.NamedIn bytes) {d : Document} {m : Node}
    (hd : ofEvents events = .ok d) (hm : d.model = .ok m) : check bytes = .ok () := by
  obtain ⟨name, hname, htag⟩ := tag_of_model (tagsIn_of_ofEvents hnamed hd) hm
  have hascii : name = ascii "uml:Model" :=
    Text.eq_ascii_of_decodeUtf8 htag (by simp [Text.IsAscii])
  exact check_of_infix htext (hascii ▸ hname)

theorem exists_packagedElements_iff (d : Document) :
    (∃ roots, d.packagedElements = .ok roots) ↔ ∃ m, d.model = .ok m := by
  simp [packagedElements, outcome_map]

/-- The quick check passes every text from which the reader gets a model. This holds of all events
whose tags are named in the text, as those of a document are; the grammar is then that of the
packaged elements. -/
theorem check_of_read {bytes : Bytes} {text : String} (htext : Text.decodeUtf8 bytes = .ok text) :
    (∀ e ∈ eventsOf bytes, e.NamedIn bytes) ∧
    (∀ events, (∀ e ∈ events, e.NamedIn bytes) → ∀ d m, ofEvents events = .ok d →
      d.model = .ok m → check bytes = .ok ()) ∧
    ∀ d, read bytes = .ok d →
      ((∃ roots, d.packagedElements = .ok roots) ↔ ∃ m, d.model = .ok m) ∧
      ∀ roots, d.packagedElements = .ok roots →
        check bytes = .ok () ∧ ∀ s, transformDocument s bytes = transform s roots := by
  refine ⟨namedIn_eventsOf bytes, fun events hnamed d m hd hm => check_of_events htext hnamed hd hm,
    fun d hread => ⟨exists_packagedElements_iff d, fun roots hroots => ?_⟩⟩
  obtain ⟨m, hm⟩ := (exists_packagedElements_iff d).mp ⟨roots, hroots⟩
  have hcheck := check_of_events htext (namedIn_eventsOf bytes) hread hm
  refine ⟨hcheck, fun s => ?_⟩
  unfold transformDocument
  rw [hcheck, hread]
  simp [Except.mapError, bind, Except.bind, hroots]

/-- A model in a wrapper, after a comment and a sibling. -/
def wrappedText : String :=
  "<!-- uml -->\n<xmi:XMI><note/><uml:Model name=\"é\"><packagedElement " ++
    "xmi:type=\"uml:Class\" xmi:id=\"s\" name=\"S\"/></uml:Model></xmi:XMI>"

theorem wrapped_checked : ∃ d roots,
    Text.decodeUtf8 (Text.encodeUtf8 wrappedText) = .ok wrappedText ∧
    read (Text.encodeUtf8 wrappedText) = .ok d ∧ d.packagedElements = .ok roots ∧
    roots.map Node.name? = [some "S"] ∧
    check (Text.encodeUtf8 wrappedText) = .ok () ∧
    transformDocument {} (Text.encodeUtf8 wrappedText) = transform {} roots := by
  have htext : Text.decodeUtf8 (Text.encodeUtf8 wrappedText) = .ok wrappedText := by
    decide +kernel
  have hnames : (read (Text.encodeUtf8 wrappedText)).map
      (fun d => d.packagedElements.map (·.map Node.name?)) = .ok (.ok [some "S"]) := by
    decide +kernel
  obtain ⟨d, hread, hmembers⟩ := outcome_map.mp hnames
  obtain ⟨roots, hroots, hshown⟩ := outcome_map.mp hmembers
  obtain ⟨-, -, haccepts⟩ := check_of_read htext
  obtain ⟨hcheck, hrun⟩ := (haccepts d hread).2 roots hroots
  exact ⟨d, roots, htext, hread, hroots, hshown, hcheck, hrun {}⟩

end Document
end ClassGrammar
