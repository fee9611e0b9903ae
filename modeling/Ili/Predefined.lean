import Ili.Catalog.Build

/-!
# The predefined model

The model `INTERLIS` is known everywhere. It declares the basic units and domains, and its elements
can be named without naming it.
-/

namespace Ili

def predefinedText : String :=
  r#"INTERLIS 2.4;

TYPE MODEL INTERLIS (en) AT "https://www.interlis.ch" VERSION "2024-04-18" =

  UNIT
    METER [m];
    KILOGRAM [kg];
    SECOND [s];
    AMPERE [A];
    DEGREE_KELVIN [K];
    MOLE [mol];
    CANDELA [cd];
    RADIAN [rad];

  DOMAIN
    BOOLEAN = BOOLEAN;
    HALIGNMENT = (Left, Center, Right);
    VALIGNMENT = (Top, Cap, Half, Base, Bottom);
    NAME = TEXT*255;
    URI = TEXT*1023;
    UUIDOID = OID TEXT*36;
    STANDARDOID = OID TEXT*16;
    I32OID = OID 0 .. 2147483647;

END INTERLIS.
"#

/-- What the predefined model declares. It belongs to no file on disk. -/
def predefinedCatalog : Catalog :=
  .ofText predefinedText none

end Ili
