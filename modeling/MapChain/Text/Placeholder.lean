/-!
# Placeholders

Some messages end in a detail whose words belong to someone else: to the reader of a JSON text, or
to the operating system. A placeholder stands where such a detail would be.
-/

namespace MapChain.Placeholder

/-- Stands for the details of a fault in a JSON text. -/
def json : String := "<json>"

/-- Stands for the details of a fault that the operating system reports. -/
def system : String := "<io>"

end MapChain.Placeholder
