import Codex.Lib.Text
import Mathlib.Data.List.Forall2

/-!
# The items of a conversation

The items of the history, and the passes that replace images and audio where the model does
not take them.  Of each item the fields are kept that the normalisation reads or writes; what
else an item carries is a value of an arbitrary type `ρ`, which no pass looks into.

Replacing the media goes through the contents of a message together with their
classifications, which are completed on the way (`toAnnotatedContent`).
-/

namespace Codex.History

open Text List

inductive InputModality where
  | text
  | image
  | audio
  deriving DecidableEq, Repr

/-! ## Items -/

inductive ContentItem (ρ : Type*) where
  | inputText (text : Str)
  | inputImage (image : ρ)
  | inputAudio (audioUrl : Str)
  | outputText (text : Str) (rest : ρ)
  deriving DecidableEq

inductive FunctionCallOutputContentItem (ρ : Type*) where
  | inputText (text : Str)
  | inputImage (image : ρ)
  | inputAudio (audioUrl : Str)
  | encryptedContent (encryptedContent : Str)
  deriving DecidableEq

inductive FunctionCallOutputBody (ρ : Type*) where
  | text (content : Str)
  | contentItems (items : List (FunctionCallOutputContentItem ρ))
  deriving DecidableEq

structure FunctionCallOutputPayload (ρ : Type*) where
  body : FunctionCallOutputBody ρ
  success : Option Bool
  deriving DecidableEq

def FunctionCallOutputPayload.fromText {ρ : Type*} (content : Str) : FunctionCallOutputPayload ρ :=
  ⟨.text content, none⟩

/-- The classifications of a message's contents, and what else is passed through. -/
structure InternalChatMessageMetadataPassthrough (ρ : Type*) where
  contentItemKinds : Option (List Str)
  rest : ρ
  deriving DecidableEq

abbrev Passthrough (ρ : Type*) := Option (InternalChatMessageMetadataPassthrough ρ)

inductive ResponseItem (ρ : Type*) where
  | message (content : List (ContentItem ρ)) (metadata : Passthrough ρ) (rest : ρ)
  | localShellCall (id callId : Option Str) (rest : ρ)
  | functionCall (id : Option Str) (callId : Str) (rest : ρ)
  | toolSearchCall (id callId : Option Str) (rest : ρ)
  | functionCallOutput (id callId name nameSpace : Option Str)
      (output : FunctionCallOutputPayload ρ) (metadata : Passthrough ρ)
  | customToolCall (id : Option Str) (callId : Str) (rest : ρ)
  | customToolCallOutput (id : Option Str) (callId : Str) (name : Option Str)
      (output : FunctionCallOutputPayload ρ) (metadata : Passthrough ρ)
  | toolSearchOutput (id callId : Option Str) (status execution : Str) (tools : List ρ)
      (metadata : Passthrough ρ)
  | imageGenerationCall (result : Str) (rest : ρ)
  | other (rest : ρ)
  deriving DecidableEq

structure ResponseItemEnvelope (ρ : Type*) where
  item : ResponseItem ρ
  metadata : Option ρ
  deriving DecidableEq

def ResponseItemEnvelope.new {ρ : Type*} (item : ResponseItem ρ) : ResponseItemEnvelope ρ :=
  ⟨item, none⟩

/-! ## Annotated contents -/

structure AnnotatedContent (ρ : Type*) where
  content : ContentItem ρ
  kind : Str

/-- Contents with their classifications, unknown where one is missing. -/
def toAnnotatedContent {ρ : Type*} (content : List (ContentItem ρ)) (metadata : Passthrough ρ) :
    List (AnnotatedContent ρ) :=
  let kinds := (metadata.bind (·.contentItemKinds)).getD []
  let padded := kinds ++ List.replicate (content.length - kinds.length) "unknown".toList
  (content.zip padded).map fun (content, kind) => ⟨content, kind⟩

/-- The message's contents and classifications, replaced together. -/
def setAnnotatedContent {ρ : Type*} [Inhabited ρ] (content : List (AnnotatedContent ρ))
    (metadata : Passthrough ρ) (rest : ρ) : ResponseItem ρ :=
  .message (content.map AnnotatedContent.content) (some { metadata.getD ⟨none, default⟩ with
      contentItemKinds := some (content.map AnnotatedContent.kind) }) rest

/-! ## Unsupported media -/

structure UnsupportedMedia where
  text : Str
  contentKind : Str

namespace UnsupportedMedia

protected def image : UnsupportedMedia where
  text := "image content omitted because you do not support image input".toList
  contentKind := "images.unsupported".toList

protected def audio : UnsupportedMedia where
  text := "audio content omitted because you do not support audio input".toList
  contentKind := "audio.unsupported".toList

/-- The notice that stands for the part. -/
def renderFragment {ρ : Type*} (media : UnsupportedMedia) : AnnotatedContent ρ :=
  ⟨.inputText media.text, media.contentKind⟩

end UnsupportedMedia

section Strip

variable {ρ : Type*}

def ContentItem.isImage : ContentItem ρ → Bool
  | inputImage _ => true
  | _ => false

def ContentItem.isAudio : ContentItem ρ → Bool
  | inputAudio _ => true
  | _ => false

def FunctionCallOutputContentItem.isImage : FunctionCallOutputContentItem ρ → Bool
  | inputImage _ => true
  | _ => false

def FunctionCallOutputContentItem.isAudio : FunctionCallOutputContentItem ρ → Bool
  | inputAudio _ => true
  | _ => false

/-- One part, replaced by the notice if it is of the medium. -/
def stripContent (ofMedium : ContentItem ρ → Bool) (media : UnsupportedMedia)
    (part : AnnotatedContent ρ) : AnnotatedContent ρ :=
  if ofMedium part.content then media.renderFragment else part

def stripOutputItem (ofMedium : FunctionCallOutputContentItem ρ → Bool) (media : UnsupportedMedia)
    (part : FunctionCallOutputContentItem ρ) : FunctionCallOutputContentItem ρ :=
  if ofMedium part then .inputText media.text else part

def FunctionCallOutputPayload.mapContentItems
    (f : FunctionCallOutputContentItem ρ → FunctionCallOutputContentItem ρ)
    (output : FunctionCallOutputPayload ρ) : FunctionCallOutputPayload ρ :=
  match output.body with
  | .text _ => output
  | .contentItems items => { output with body := .contentItems (items.map f) }

variable [Inhabited ρ]

variable (onContent : AnnotatedContent ρ → AnnotatedContent ρ)
  (onOutput : FunctionCallOutputContentItem ρ → FunctionCallOutputContentItem ρ)

/-- The parts of a message or of a tool's output, each replaced by the function. -/
def mapParts : ResponseItem ρ → ResponseItem ρ
  | .message content metadata rest =>
    setAnnotatedContent ((toAnnotatedContent content metadata).map onContent) metadata rest
  | .functionCallOutput id callId name nameSpace output metadata =>
    .functionCallOutput id callId name nameSpace (output.mapContentItems onOutput) metadata
  | .customToolCallOutput id callId name output metadata =>
    .customToolCallOutput id callId name (output.mapContentItems onOutput) metadata
  | item => item

def clearGeneratedImage : ResponseItem ρ → ResponseItem ρ
  | .imageGenerationCall _ rest => .imageGenerationCall [] rest
  | item => item

def imageToNotice : AnnotatedContent ρ → AnnotatedContent ρ :=
  stripContent ContentItem.isImage .image

open FunctionCallOutputContentItem

def outputImageToNotice : FunctionCallOutputContentItem ρ → FunctionCallOutputContentItem ρ :=
  stripOutputItem isImage .image

def audioToNotice : AnnotatedContent ρ → AnnotatedContent ρ :=
  stripContent ContentItem.isAudio .audio

def outputAudioToNotice : FunctionCallOutputContentItem ρ → FunctionCallOutputContentItem ρ :=
  stripOutputItem isAudio .audio

variable (item : ResponseItem ρ)

def stripImages : ResponseItem ρ :=
  clearGeneratedImage (mapParts imageToNotice outputImageToNotice item)

def stripAudio : ResponseItem ρ :=
  mapParts audioToNotice outputAudioToNotice item

/-- The items of the envelopes, replaced if the model does not take the medium. -/
def stripWhenUnsupported (modality : InputModality) (strip : ResponseItem ρ → ResponseItem ρ)
    (modalities : List InputModality) (items : List (ResponseItemEnvelope ρ)) :
    List (ResponseItemEnvelope ρ) :=
  if modality ∈ modalities then items
  else items.map fun envelope => { envelope with item := strip envelope.item }

def stripImagesWhenUnsupported (modalities : List InputModality)
    (items : List (ResponseItemEnvelope ρ)) : List (ResponseItemEnvelope ρ) :=
  stripWhenUnsupported .image stripImages modalities items

def stripAudioWhenUnsupported (modalities : List InputModality)
    (items : List (ResponseItemEnvelope ρ)) : List (ResponseItemEnvelope ρ) :=
  stripWhenUnsupported .audio stripAudio modalities items

/-! ## Replacing once is replacing for good -/

omit [Inhabited ρ] in
theorem map_content_toAnnotatedContent (content : List (ContentItem ρ)) (metadata : Passthrough ρ) :
    (toAnnotatedContent content metadata).map AnnotatedContent.content = content := by
  simp only [toAnnotatedContent, map_map]
  exact map_fst_zip (by simp; omega)

omit [Inhabited ρ] in
/-- Complete classifications are taken as they are. -/
theorem toAnnotatedContent_complete (parts : List (AnnotatedContent ρ)) (rest : ρ) :
    toAnnotatedContent (parts.map AnnotatedContent.content)
      (some ⟨some (parts.map AnnotatedContent.kind), rest⟩) = parts := by
  simp only [toAnnotatedContent, Option.bind_some, Option.getD_some, length_map,
    Nat.sub_self, replicate_zero, append_nil, zip_map', map_map]
  exact map_id parts

/-- A second pass finds the parts that the first one has left. -/
theorem mapParts_mapParts (onContent' : AnnotatedContent ρ → AnnotatedContent ρ)
    (onOutput onOutput' : FunctionCallOutputContentItem ρ → FunctionCallOutputContentItem ρ)
    (item : ResponseItem ρ) :
    mapParts onContent' onOutput' (mapParts onContent onOutput item) =
      mapParts (onContent' ∘ onContent) (onOutput' ∘ onOutput) item := by
  cases item with
  | message content metadata rest =>
    simp only [mapParts, setAnnotatedContent, toAnnotatedContent_complete, Option.getD_some]
    simp only [map_map]
  | functionCallOutput _ _ _ _ output | customToolCallOutput _ _ _ output =>
    obtain ⟨body, success⟩ := output
    cases body <;> simp [mapParts, FunctionCallOutputPayload.mapContentItems]
  | _ => rfl

omit [Inhabited ρ] in
theorem clearGeneratedImage_clearGeneratedImage (item : ResponseItem ρ) :
    clearGeneratedImage (clearGeneratedImage item) = clearGeneratedImage item := by
  cases item <;> rfl

theorem mapParts_clearGeneratedImage (item : ResponseItem ρ) :
    mapParts onContent onOutput (clearGeneratedImage item) =
      clearGeneratedImage (mapParts onContent onOutput item) := by
  cases item <;> rfl

theorem stripImages_stripImages : stripImages (stripImages item) = stripImages item := by
  have hcontent : imageToNotice ∘ imageToNotice = (imageToNotice : AnnotatedContent ρ → _) := by
    funext ⟨content, kind⟩
    cases content <;> rfl
  have houtput : outputImageToNotice ∘ outputImageToNotice =
      (outputImageToNotice : _ → FunctionCallOutputContentItem ρ) := by
    funext part
    cases part <;> rfl
  simp only [stripImages, mapParts_clearGeneratedImage, clearGeneratedImage_clearGeneratedImage,
    mapParts_mapParts, hcontent, houtput]

theorem stripAudio_stripAudio : stripAudio (stripAudio item) = stripAudio item := by
  have hcontent : audioToNotice ∘ audioToNotice = (audioToNotice : AnnotatedContent ρ → _) := by
    funext ⟨content, kind⟩
    cases content <;> rfl
  have houtput : outputAudioToNotice ∘ outputAudioToNotice =
      (outputAudioToNotice : _ → FunctionCallOutputContentItem ρ) := by
    funext part
    cases part <;> rfl
  simp only [stripAudio, mapParts_mapParts, hcontent, houtput]

theorem stripImages_stripAudio : stripImages (stripAudio item) = stripAudio (stripImages item) := by
  have hcontent : imageToNotice ∘ audioToNotice =
      (audioToNotice ∘ imageToNotice : AnnotatedContent ρ → _) := by
    funext ⟨content, kind⟩
    cases content <;> simp [imageToNotice, audioToNotice, stripContent, ContentItem.isImage,
      ContentItem.isAudio, UnsupportedMedia.renderFragment]
  have houtput : outputImageToNotice ∘ outputAudioToNotice =
      (outputAudioToNotice ∘ outputImageToNotice : _ → FunctionCallOutputContentItem ρ) := by
    funext part
    cases part <;> simp [outputImageToNotice, outputAudioToNotice, stripOutputItem,
      isImage, isAudio]
  simp only [stripImages, stripAudio, mapParts_clearGeneratedImage, mapParts_mapParts, hcontent,
    houtput]

/-! ## What replacing keeps -/

variable (modalities : List InputModality)

/-- The item with the parts replaced that the model does not take. -/
def stripUnsupported (item : ResponseItem ρ) : ResponseItem ρ :=
  let item := if .image ∈ modalities then item else stripImages item
  if .audio ∈ modalities then item else stripAudio item

theorem strip_items (items : List (ResponseItemEnvelope ρ)) :
    stripAudioWhenUnsupported modalities (stripImagesWhenUnsupported modalities items) =
      items.map fun envelope =>
        { envelope with item := stripUnsupported modalities envelope.item } := by
  unfold stripAudioWhenUnsupported stripImagesWhenUnsupported stripWhenUnsupported stripUnsupported
  split_ifs
  · simp
  · rfl
  · rfl
  · rw [map_map]
    rfl

theorem stripUnsupported_stripUnsupported (item : ResponseItem ρ) :
    stripUnsupported modalities (stripUnsupported modalities item) =
      stripUnsupported modalities item := by
  unfold stripUnsupported
  split_ifs
  · rfl
  · exact stripAudio_stripAudio item
  · exact stripImages_stripImages item
  · simp only [stripImages_stripAudio, stripAudio_stripAudio, stripImages_stripImages]

/-- The part is left as it is, or it is of a medium that the model does not take and the
notice stands for it. -/
def PartKept {α : Type*} (modalities : List InputModality) (isImage isAudio : α → Bool)
    (notice : Str → α) (part part' : α) : Prop :=
  part' = part ∨
    (.image ∉ modalities ∧ isImage part = true ∧ part' = notice UnsupportedMedia.image.text) ∨
    (.audio ∉ modalities ∧ isAudio part = true ∧ part' = notice UnsupportedMedia.audio.text)

def ContentKept : ContentItem ρ → ContentItem ρ → Prop :=
  PartKept modalities ContentItem.isImage ContentItem.isAudio .inputText

def OutputItemKept : FunctionCallOutputContentItem ρ → FunctionCallOutputContentItem ρ → Prop :=
  PartKept modalities isImage isAudio .inputText

inductive BodyKept : FunctionCallOutputBody ρ → FunctionCallOutputBody ρ → Prop where
  | text (content : Str) : BodyKept (.text content) (.text content)
  | contentItems {items items' : List (FunctionCallOutputContentItem ρ)}
      (h : List.Forall₂ (OutputItemKept modalities) items items') :
      BodyKept (.contentItems items) (.contentItems items')

/-- The item is the same one, up to media that the model does not take: parts of messages and of
outputs, in their places, and generated images.  Only the classifications of a message's parts
may be completed. -/
inductive ItemKept : ResponseItem ρ → ResponseItem ρ → Prop where
  | same (item : ResponseItem ρ) : ItemKept item item
  | message {content content' : List (ContentItem ρ)} {metadata metadata' : Passthrough ρ} (rest : ρ)
      (hcontent : List.Forall₂ (ContentKept modalities) content content')
      (hmetadata : (metadata'.map (·.rest)).getD default = (metadata.map (·.rest)).getD default) :
      ItemKept (.message content metadata rest) (.message content' metadata' rest)
  | functionCallOutput {output output' : FunctionCallOutputPayload ρ}
      (id callId name nameSpace : Option Str) (metadata : Passthrough ρ)
      (hbody : BodyKept modalities output.body output'.body)
      (hsuccess : output'.success = output.success) :
      ItemKept (.functionCallOutput id callId name nameSpace output metadata)
        (.functionCallOutput id callId name nameSpace output' metadata)
  | customToolCallOutput {output output' : FunctionCallOutputPayload ρ} (id : Option Str)
      (callId : Str) (name : Option Str) (metadata : Passthrough ρ)
      (hbody : BodyKept modalities output.body output'.body)
      (hsuccess : output'.success = output.success) :
      ItemKept (.customToolCallOutput id callId name output metadata)
        (.customToolCallOutput id callId name output' metadata)
  | generatedImage (result : Str) (rest : ρ) (h : .image ∉ modalities) :
      ItemKept (.imageGenerationCall result rest) (.imageGenerationCall [] rest)

section Kept

variable {modalities} {onContent : AnnotatedContent ρ → AnnotatedContent ρ}
  {onOutput : FunctionCallOutputContentItem ρ → FunctionCallOutputContentItem ρ}

omit [Inhabited ρ] in
theorem bodyKept_mapContentItems (h : ∀ part, OutputItemKept modalities part (onOutput part))
    (output : FunctionCallOutputPayload ρ) :
    BodyKept modalities output.body (output.mapContentItems onOutput).body ∧
      (output.mapContentItems onOutput).success = output.success := by
  obtain ⟨body, success⟩ := output
  cases body with
  | text content => exact ⟨.text content, rfl⟩
  | contentItems items =>
    refine ⟨.contentItems ?_, rfl⟩
    rw [List.forall₂_map_right_iff]
    exact List.forall₂_same.mpr fun part _ => h part

/-- Parts that are kept each make an item that is kept. -/
theorem itemKept_mapParts
    (hcontent : ∀ part, ContentKept modalities part.content (onContent part).content)
    (houtput : ∀ part, OutputItemKept modalities part (onOutput part)) (item : ResponseItem ρ) :
    ItemKept modalities item (mapParts onContent onOutput item) := by
  cases item with
  | message content metadata rest =>
    refine .message rest ?_ ?_
    · have hparts : List.Forall₂ (ContentKept modalities)
          ((toAnnotatedContent content metadata).map AnnotatedContent.content)
          (((toAnnotatedContent content metadata).map onContent).map AnnotatedContent.content) := by
        rw [map_map, List.forall₂_map_left_iff, List.forall₂_map_right_iff]
        exact List.forall₂_same.mpr fun part _ => hcontent part
      rwa [map_content_toAnnotatedContent] at hparts
    · cases metadata <;> rfl
  | functionCallOutput id callId name nameSpace output metadata =>
    obtain ⟨hbody, hsuccess⟩ := bodyKept_mapContentItems houtput output
    exact .functionCallOutput id callId name nameSpace metadata hbody hsuccess
  | customToolCallOutput id callId name output metadata =>
    obtain ⟨hbody, hsuccess⟩ := bodyKept_mapContentItems houtput output
    exact .customToolCallOutput id callId name metadata hbody hsuccess
  | _ => exact .same _

theorem itemKept_clearGeneratedImage (himage : .image ∉ modalities) {item : ResponseItem ρ}
    (h : ItemKept modalities item (mapParts onContent onOutput item)) :
    ItemKept modalities item (clearGeneratedImage (mapParts onContent onOutput item)) := by
  cases item with
  | imageGenerationCall result rest => exact .generatedImage result rest himage
  | _ => exact h

omit [Inhabited ρ] in
theorem contentKept_image (himage : .image ∉ modalities) (part : AnnotatedContent ρ) :
    ContentKept modalities part.content (imageToNotice part).content := by
  obtain ⟨content, kind⟩ := part
  cases content with
  | inputImage image => exact .inr (.inl ⟨himage, rfl, rfl⟩)
  | _ => exact .inl rfl

omit [Inhabited ρ] in
theorem contentKept_audio (haudio : .audio ∉ modalities) (part : AnnotatedContent ρ) :
    ContentKept modalities part.content (audioToNotice part).content := by
  obtain ⟨content, kind⟩ := part
  cases content with
  | inputAudio audioUrl => exact .inr (.inr ⟨haudio, rfl, rfl⟩)
  | _ => exact .inl rfl

omit [Inhabited ρ] in
theorem outputItemKept_image (himage : .image ∉ modalities)
    (part : FunctionCallOutputContentItem ρ) :
    OutputItemKept modalities part (outputImageToNotice part) := by
  cases part with
  | inputImage image => exact .inr (.inl ⟨himage, rfl, rfl⟩)
  | _ => exact .inl rfl

omit [Inhabited ρ] in
theorem outputItemKept_audio (haudio : .audio ∉ modalities)
    (part : FunctionCallOutputContentItem ρ) :
    OutputItemKept modalities part (outputAudioToNotice part) := by
  cases part with
  | inputAudio audioUrl => exact .inr (.inr ⟨haudio, rfl, rfl⟩)
  | _ => exact .inl rfl

/-- Replacing keeps each item up to the media that the model does not take. -/
theorem itemKept_stripUnsupported (modalities : List InputModality) (item : ResponseItem ρ) :
    ItemKept modalities item (stripUnsupported modalities item) := by
  unfold stripUnsupported
  split_ifs with himage haudio haudio
  · exact .same item
  · exact itemKept_mapParts (contentKept_audio haudio) (outputItemKept_audio haudio) item
  · exact itemKept_clearGeneratedImage himage
      (itemKept_mapParts (contentKept_image himage) (outputItemKept_image himage) item)
  · -- a notice in the place of an image is text, which the second pass leaves
    rw [stripAudio, stripImages, mapParts_clearGeneratedImage, mapParts_mapParts]
    refine itemKept_clearGeneratedImage himage (itemKept_mapParts ?_ ?_ item)
    · rintro ⟨content, kind⟩
      cases content with
      | inputImage image => exact .inr (.inl ⟨himage, rfl, rfl⟩)
      | _ => exact contentKept_audio haudio _
    · intro part
      cases part with
      | inputImage image => exact .inr (.inl ⟨himage, rfl, rfl⟩)
      | _ => exact outputItemKept_audio haudio _

end Kept

end Strip

end Codex.History
